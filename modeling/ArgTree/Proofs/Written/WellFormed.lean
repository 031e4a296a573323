import Mathlib
import ArgTree.Written.Scalar

namespace ArgTree

namespace Written

-- Texts that are keys as they are.
def isKey (k : String) : Bool :=
  match kinds? k with
  | some [kind] => kind.isElement
  | _           => false

-- Strings that an item of a list can be without being quoted.
def isItem (s : String) : Bool :=
  isBare s || isVerbatim s || isEscapable s

end Written

namespace Value

-- Values in which no list and no map is empty, keys are distinct, and keys and strings are such
-- that expressions can denote them. `floats` and `strings` restrict the floats and the value
-- itself, if it is a string.
inductive WellFormed (floats : Binary64 → Prop) : (strings : String → Prop) → Value → Prop
  | str   : strings s → WellFormed floats strings (.str s)
  | int   : WellFormed floats strings (.int n)
  | float : floats f → WellFormed floats strings (.float f)
  | list  : vs ≠ [] → (∀ v ∈ vs, WellFormed floats (Written.isItem ·) v) →
            WellFormed floats strings (.list vs)
  | map   : es ≠ [] → (Entries.keys es).Nodup → (∀ e ∈ es, Written.isKey e.1) →
            (∀ e ∈ es, WellFormed floats (Written.isBare ·) e.2) →
            WellFormed floats strings (.map es)

theorem WellFormed.mono (hs : ∀ s, strings s → strings' s) (h : WellFormed floats strings v) :
    WellFormed floats strings' v := by
  cases h
  case str h            => exact .str (hs _ h)
  case int              => exact .int
  case float h          => exact .float h
  case list hn h        => exact .list hn h
  case map hn hd hk h   => exact .map hn hd hk h

theorem WellFormed.of_not_isScalar (hs : v.isScalar = false) (h : WellFormed floats strings v) :
    WellFormed floats strings' v := by
  cases h
  case list hn h      => exact .list hn h
  case map hn hd hk h => exact .map hn hd hk h
  all_goals contradiction

-- A whole expression denotes a list or a map. Only the list may be empty.
def IsRoot (floats : Binary64 → Prop) (v : Value) : Prop :=
  v = .list [] ∨ v.isScalar = false ∧ v.WellFormed floats fun _ => False

end Value

end ArgTree
