import ArgTree.Number.Binary64

namespace ArgTree

-- Why a text is no floating-point number.
inductive FloatError
  | empty
  | invalid
  deriving DecidableEq

def FloatError.message : FloatError → String
  | empty   => "cannot parse float from empty string"
  | invalid => "invalid float literal"

namespace FloatNumeral

-- Splits an optional sign off a text, and says whether it is a `-`.
def sign : List Char → Bool × List Char
  | '-' :: cs => (true, cs)
  | '+' :: cs => (false, cs)
  | cs        => (false, cs)

-- Reads what may follow the digits of a number: nothing, or an exponent.
def exponent? : List Char → Option Int
  | [] => some 0
  | c :: cs =>
    let (negative, digits) := sign cs
    if c.toLower = 'e' ∧ digits ≠ [] ∧ digits.all Char.isDigit then
      some (if negative then -(Digits.toNat digits) else Digits.toNat digits)
    else
      none

-- Reads digits with at most one point among them, and an optional exponent.
def decimal? (negative : Bool) (cs : List Char) : Option Binary64 :=
  let whole := cs.takeWhile Char.isDigit
  let (fraction, tail) :=
    match cs.dropWhile Char.isDigit with
    | '.' :: cs => (cs.takeWhile Char.isDigit, cs.dropWhile Char.isDigit)
    | cs        => ([], cs)
  if whole = [] ∧ fraction = [] then none
  else
    (exponent? tail).map fun e =>
      Binary64.ofDecimal negative (Digits.toNat (whole ++ fraction)) (e - fraction.length)

-- Reads a float: an optional sign and a decimal number, an infinity or NaN, in any case of letters.
def float? (cs : List Char) : Except FloatError Binary64 :=
  if cs = [] then .error .empty
  else
    let (negative, body) := sign cs
    let word := String.ofList (body.map Char.toLower)
    if word = "inf" ∨ word = "infinity" then .ok (.infinite negative)
    else if word = "nan" then .ok .nan
    else
      match decimal? negative body with
      | some f => .ok f
      | none   => .error .invalid

end FloatNumeral

end ArgTree
