import ArgTree.Token.Basic
import ArgTree.Entries

namespace ArgTree

-- The trees that expressions denote.
inductive Value
  | str (s : String)
  | int (n : Int64)
  | float (f : Binary64)
  | list (items : List Value)
  | map (entries : List (String × Value))

namespace Value

def ofScalar : Scalar → Value
  | .str s   => str s
  | .int n   => int n
  | .float f => float f

def str? : Value → Option String
  | str s => some s
  | _     => none

def int? : Value → Option Int64
  | int n => some n
  | _     => none

def float? : Value → Option Binary64
  | float f => some f
  | _       => none

def list? : Value → Option (List Value)
  | list items => some items
  | _          => none

def map? : Value → Option (Entries Value)
  | map entries => some entries
  | _           => none

def isScalar : Value → Bool
  | str _ | int _ | float _ => true
  | list _ | map _          => false

-- Numerical equality of trees: floats are compared as numbers, and the order of entries counts.
def equals : Value → Value → Bool
  | str s₁,   str s₂   => s₁ = s₂
  | int n₁,   int n₂   => n₁ = n₂
  | float f₁, float f₂ => f₁.equals f₂
  | list vs₁, list vs₂ => items vs₁ vs₂
  | map es₁,  map es₂  => entries es₁ es₂
  | _,        _        => false
where
  items : List Value → List Value → Bool
    | [],        []        => true
    | v₁ :: vs₁, v₂ :: vs₂ => v₁.equals v₂ && items vs₁ vs₂
    | _,         _         => false
  entries : Entries Value → Entries Value → Bool
    | [],              []              => true
    | (k₁, v₁) :: es₁, (k₂, v₂) :: es₂ => k₁ = k₂ && v₁.equals v₂ && entries es₁ es₂
    | _,               _               => false

end Value

end ArgTree
