import ArgTree.Written.Scalar

namespace ArgTree

-- How much space is written between tokens.
structure Spacing where
  afterComma   : Bool := false
  aroundEquals : Bool := false
  deriving DecidableEq

namespace Spacing

def relaxed : Spacing := ⟨true, true⟩

def separator (s : Spacing) : String :=
  if s.afterComma then ", " else ","

def equals (s : Spacing) : String :=
  if s.aroundEquals then " = " else "="

end Spacing

namespace Written

variable (spacing : Spacing)

-- The expression text of a value inside another one.
def nested : Value → String
  | .str s   => string s
  | .int n   => int n
  | .float f => float f
  | .list vs => "[" ++ items vs ++ "]"
  | .map es  => "\x7b" ++ entries es ++ "\x7d"
where
  items : List Value → String
    | []      => ""
    | [v]     => nested v
    | v :: vs => nested v ++ spacing.separator ++ items vs
  entries : List (String × Value) → String
    | []           => ""
    | [(k, v)]     => key k ++ spacing.equals ++ nested v
    | (k, v) :: es => key k ++ spacing.equals ++ nested v ++ spacing.separator ++ entries es

-- The expression text of a value. The empty list is written as the empty text, since empty brackets
-- cannot be read.
def value : Value → String
  | .list [] => ""
  | v        => nested spacing v

end Written

end ArgTree
