import ArgTree.Number.Shortest

namespace ArgTree

-- How floats are written. `plain` bounds the number of digits before the point (not positive for
-- numbers below one) outside of which an exponent is written; without it there is never an
-- exponent.
structure FloatText where
  plain    : Option (Int × Int) := none
  plusSign : Bool := false
  tie      : Tie := .up

namespace FloatText

-- Expression text has no exponents, since the language does not read them.
def expression : FloatText := {}

-- Tokens are shown with an exponent from 10¹⁶ on and below 10⁻⁴.
def display : FloatText := { plain := some (-3, 16) }

-- JSON has an exponent with its sign from 10¹⁶ on and below 10⁻⁵.
def json : FloatText := { plain := some (-4, 16), plusSign := true, tie := .even }

-- Digits on both sides of the point.
def positional (d : Decimal) : List Char :=
  if d.point ≤ 0 then
    '0' :: '.' :: List.replicate (-d.point).toNat '0' ++ d.digits
  else if d.digits.length ≤ d.point then
    d.digits ++ List.replicate (d.point - d.digits.length).toNat '0' ++ ['.', '0']
  else
    d.digits.take d.point.toNat ++ '.' :: d.digits.drop d.point.toNat

-- One digit before the point, and the power of ten.
def scientific (plusSign : Bool) (d : Decimal) : List Char :=
  let fraction := d.digits.drop 1
  let power := d.point - 1
  d.digits.take 1 ++ (if fraction = [] then [] else '.' :: fraction)
    ++ 'e' :: (if plusSign ∧ 0 ≤ power then ['+'] else []) ++ Digits.ofInt power

def magnitude (t : FloatText) (rank : Nat) : List Char :=
  if rank = 0 then ['0', '.', '0']
  else
    let d := Decimal.shortest t.tie rank
    match t.plain with
    | none          => positional d
    | some (lo, hi) => if lo ≤ d.point ∧ d.point ≤ hi then positional d else scientific t.plusSign d

def write (t : FloatText) (f : Binary64) : List Char :=
  let sign := if f.negative then ['-'] else []
  match f with
  | .nan           => "NaN".toList
  | .infinite _    => sign ++ "inf".toList
  | .finite _ rank => sign ++ t.magnitude rank

end FloatText

end ArgTree
