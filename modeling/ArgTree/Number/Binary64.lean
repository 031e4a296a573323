import ArgTree.Number.Numeral

namespace ArgTree

-- A binary64 floating-point number. The finite magnitudes are numbered in increasing order, so that
-- rank 0 is zero and neighbouring ranks are neighbouring magnitudes. There is a single NaN.
inductive Binary64
  | nan
  | infinite (negative : Bool)
  | finite (negative : Bool) (rank : Fin (2047 * Nat.pow 2 52))
  deriving DecidableEq

namespace Binary64

-- The rank that follows the greatest finite magnitude.
def infinityRank : Nat := 2047 * Nat.pow 2 52

-- The magnitude of a given rank, in units of the least positive one (2⁻¹⁰⁷⁴).
def scaled (rank : Nat) : Nat :=
  if rank < Nat.pow 2 52 then rank
  else (Nat.pow 2 52 + rank % Nat.pow 2 52) * Nat.pow 2 (rank / Nat.pow 2 52 - 1)

-- The greatest number below `start + 2 ^ bits` that satisfies `p`, provided that `p` holds at
-- `start` and fails everywhere above a number at which it fails.
def greatest (p : Nat → Bool) : (bits start : Nat) → Nat
  | 0,        start => start
  | bits + 1, start =>
    let middle := start + Nat.pow 2 bits
    if p middle then greatest p bits middle else greatest p bits start

-- The rank of the magnitude nearest to `n / d` units of the least positive one, the even rank of
-- two that are equally near. A quotient out of reach of the finite magnitudes gets the rank that
-- follows them.
def nearestRank (n d : Nat) : Nat :=
  let below := greatest (fun r => scaled r * d ≤ n) 63 0
  let excess := n - scaled below * d
  let shortfall := scaled (below + 1) * d - n
  let rank :=
    if excess < shortfall then below
    else if shortfall < excess then below + 1
    else if below % 2 = 0 then below
    else below + 1
  min rank infinityRank

def ofRank (negative : Bool) (rank : Nat) : Binary64 :=
  if h : rank < 2047 * Nat.pow 2 52 then finite negative ⟨rank, h⟩ else infinite negative

-- The number nearest to `m * 10 ^ e`. Powers far outside the range of binary64 are not computed.
def ofDecimal (negative : Bool) (m : Nat) (e : Int) : Binary64 :=
  let top := Digits.count m + e
  ofRank negative <|
    if m = 0 ∨ top < -400 then 0
    else if 400 < top then infinityRank
    else if 0 ≤ e then nearestRank (m * Nat.pow 10 e.toNat * Nat.pow 2 1074) 1
    else nearestRank (m * Nat.pow 2 1074) (Nat.pow 10 (-e).toNat)

-- The interchange encoding: sign, exponent and fraction from high to low.
def toBits : Binary64 → Nat
  | nan                  => 0x7FF8000000000000
  | infinite negative    => cond negative (Nat.pow 2 63) 0 + infinityRank
  | finite negative rank => cond negative (Nat.pow 2 63) 0 + rank

def ofBits (bits : Nat) : Binary64 :=
  let rank := bits % Nat.pow 2 63
  if infinityRank < rank then nan else ofRank (bits / Nat.pow 2 63 % 2 = 1) rank

-- Whether two floats are numerically equal: zero has two signs, and NaN differs from itself.
def equals : Binary64 → Binary64 → Bool
  | infinite s₁, infinite s₂     => s₁ = s₂
  | finite s₁ r₁, finite s₂ r₂   => r₁ = r₂ && (s₁ = s₂ || r₁.val = 0)
  | _, _                         => false

def isFinite : Binary64 → Bool
  | finite .. => true
  | _         => false

def negative : Binary64 → Bool
  | nan                         => false
  | infinite negative           => negative
  | finite negative _           => negative

end Binary64

end ArgTree
