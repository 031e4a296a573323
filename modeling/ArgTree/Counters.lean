import ArgTree.Entries

namespace ArgTree

-- Named counters, in the order in which they were first touched.
structure Counters where
  entries : Entries Int := []
  deriving DecidableEq

namespace Counters

-- The value of a counter, if it was ever touched.
def get? (c : Counters) (key : String) : Option Int :=
  Entries.get? c.entries key

-- Changes a counter, which starts at zero.
def add (c : Counters) (key : String) (delta : Int) : Counters where
  entries := Entries.insert key ((c.get? key).getD 0 + delta) c.entries

def addIf (c : Counters) (key : Option String) (delta : Int) : Counters :=
  match key with
  | some key => c.add key delta
  | none     => c

-- Whether every counter is at zero.
def isBalanced (c : Counters) : Bool :=
  c.entries.all (·.2 = 0)

-- The counters in the order of their names.
def sorted (c : Counters) : List (String × Int) :=
  c.entries.mergeSort fun a b => a.1 ≤ b.1

theorem get?_add (c : Counters) (key k : String) (delta : Int) :
    (c.add key delta).get? k =
      if k = key then some ((c.get? key).getD 0 + delta) else c.get? k :=
  Entries.get?_insert ..

end Counters

end ArgTree
