import ArgTree.Number.Binary64

namespace ArgTree

-- Which of two equally near decimals is chosen.
inductive Tie
  | up
  | even
  deriving DecidableEq

-- A positive decimal: its digits after `0.`, and the number of places by which the point then moves
-- to the right.
structure Decimal where
  digits : List Char
  point  : Int
  deriving DecidableEq

namespace Shortest

-- The magnitude of a rank is this many units of 10⁻¹⁰⁷⁴, exactly.
def units (rank : Nat) : Nat :=
  Binary64.scaled rank * Nat.pow 5 1074

-- Whether `n` units of 10⁻¹⁰⁷⁴ are read as the magnitude of the given rank.
def readsBack (rank n : Nat) : Bool :=
  Binary64.nearestRank n (Nat.pow 5 1074) = rank

-- Of the neighbours `lower` and `lower + 1` of an exact value the one that is read as it, given
-- which of them are: the nearer one if both are.
def neighbour (tie : Tie) (exact step lower : Nat) : (lowerReads upperReads : Bool) → Option Nat
  | false, false => none
  | true,  false => some lower
  | false, true  => some (lower + 1)
  | true,  true  =>
    let excess := exact - lower * step
    let shortfall := (lower + 1) * step - exact
    if excess < shortfall then some lower
    else if shortfall < excess then some (lower + 1)
    else match tie with
      | .up   => some (lower + 1)
      | .even => some (if lower % 2 = 0 then lower else lower + 1)

-- The multiple of `step` next to the exact value that is read as it, the nearer one if both are.
def onGrid (tie : Tie) (rank step : Nat) : Option Nat :=
  let lower := units rank / step
  neighbour tie (units rank) step lower
    (readsBack rank (lower * step)) (readsBack rank ((lower + 1) * step))

-- The coarsest decimal grid with steps of at most `10 ^ places` units on which the magnitude of a
-- rank can be written, and its number there. The finest grid holds the exact value.
def onCoarsest (tie : Tie) (rank : Nat) : (places : Nat) → Nat × Nat
  | 0          => (units rank, 0)
  | places + 1 =>
    ((onGrid tie rank (Nat.pow 10 (places + 1))).map (·, places + 1)).getD
      (onCoarsest tie rank places)

end Shortest

-- The decimal with the fewest digits that is read as the magnitude of the given rank, the nearest
-- one of these.
def Decimal.shortest (tie : Tie) (rank : Nat) : Decimal :=
  let grid := Shortest.onCoarsest tie rank (Digits.count (Shortest.units rank) - 1)
  let digits := Digits.ofNat grid.1
  { digits := (digits.reverse.dropWhile (· = '0')).reverse
    point  := digits.length + grid.2 - 1074 }

end ArgTree
