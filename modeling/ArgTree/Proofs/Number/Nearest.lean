import Mathlib
import ArgTree.Number.Binary64

namespace ArgTree.Binary64

theorem scaled_of_lt (h : rank < 2 ^ 52) : scaled rank = rank :=
  if_pos h

-- From 2⁵² on a rank is an exponent and a fraction.
theorem scaled_normal (h : fraction < 2 ^ 52) :
    scaled (2 ^ 52 * (exponent + 1) + fraction) = (2 ^ 52 + fraction) * 2 ^ exponent := by
  have hm : (2 ^ 52 * (exponent + 1) + fraction) % 2 ^ 52 = fraction := by
    rw [Nat.mul_add_mod, Nat.mod_eq_of_lt h]
  have hd : (2 ^ 52 * (exponent + 1) + fraction) / 2 ^ 52 = exponent + 1 := by
    rw [Nat.mul_add_div (by decide), Nat.div_eq_of_lt h, Nat.add_zero]
  have hn : ¬2 ^ 52 * (exponent + 1) + fraction < 2 ^ 52 := by omega
  simp only [scaled, Nat.pow_eq, hm, hd, if_neg hn, Nat.add_sub_cancel]

theorem exists_normal (h : 2 ^ 52 ≤ rank) :
    ∃ exponent fraction, fraction < 2 ^ 52 ∧ rank = 2 ^ 52 * (exponent + 1) + fraction :=
  ⟨rank / 2 ^ 52 - 1, rank % 2 ^ 52, Nat.mod_lt _ (by decide), by omega⟩

theorem scaled_strictMono : StrictMono scaled := by
  refine strictMono_nat_of_lt_succ fun rank => ?_
  by_cases hr : rank < 2 ^ 52
  case pos =>
    rw [scaled_of_lt hr]
    by_cases hs : rank + 1 < 2 ^ 52
    case pos => simp [scaled_of_lt hs]
    case neg =>
      obtain rfl : rank = 2 ^ 52 - 1 := by omega
      decide
  case neg =>
    obtain ⟨e, f, hf, rfl⟩ := exists_normal (Nat.le_of_not_lt hr)
    rw [scaled_normal hf]
    by_cases hs : f + 1 < 2 ^ 52
    case pos =>
      rw [Nat.add_assoc, scaled_normal hs]
      exact Nat.mul_lt_mul_of_pos_right (by omega) (by positivity)
    case neg =>
      -- The next magnitude is the first one of the next exponent.
      have he : 2 ^ 52 * (e + 1) + f + 1 = 2 ^ 52 * (e + 1 + 1) + 0 := by omega
      have hp : 2 ^ (e + 1) = 2 * 2 ^ e := Nat.pow_succ'
      rw [he, scaled_normal (by decide), hp, ← Nat.mul_assoc]
      exact Nat.mul_lt_mul_of_pos_right (by omega) (by positivity)

theorem greatest_eq (hp : ∀ n, p n ↔ n ≤ r) (hs : start ≤ r) (hr : r < start + 2 ^ bits) :
    greatest p bits start = r := by
  induction bits generalizing start
  case zero => simpa [greatest] using by omega
  case succ bits hi =>
    simp only [greatest, Nat.pow_eq]
    have hb : 2 ^ (bits + 1) = 2 ^ bits + 2 ^ bits := by omega
    split
    case isTrue h  => exact hi ((hp _).mp h) (by omega)
    case isFalse h => exact hi hs (Nat.lt_of_not_le (mt (hp _).mpr h))

-- The exact value of a rank is nearest to it.
theorem nearestRank_scaled (h : rank ≤ infinityRank) (hd : 0 < d) :
    nearestRank (scaled rank * d) d = rank := by
  have hg : greatest (fun r => scaled r * d ≤ scaled rank * d) 63 0 = rank := by
    refine greatest_eq (fun r => ?_) (Nat.zero_le _) (Nat.lt_of_le_of_lt h (by decide))
    rw [decide_eq_true_iff, Nat.mul_le_mul_right_iff hd, scaled_strictMono.le_iff_le]
  have hs : scaled rank * d < scaled (rank + 1) * d :=
    Nat.mul_lt_mul_of_pos_right (scaled_strictMono (Nat.lt_succ_self rank)) hd
  simp only [nearestRank, hg, Nat.sub_self, Nat.sub_pos_of_lt hs, ↓reduceIte, Nat.min_eq_left h]

-- Only the quotient counts.
theorem nearestRank_mul_right (n d : Nat) (hk : 0 < k) :
    nearestRank (n * k) (d * k) = nearestRank n d := by
  simp only [nearestRank, ← Nat.mul_assoc, ← Nat.sub_mul, Nat.mul_le_mul_right_iff hk,
    Nat.mul_lt_mul_right hk]

theorem nearestRank_congr (hd : 0 < d) (hd' : 0 < d') (h : n * d' = n' * d) :
    nearestRank n d = nearestRank n' d' := by
  rw [← nearestRank_mul_right n d hd', h, Nat.mul_comm d d', nearestRank_mul_right n' d' hd]

theorem scaled_lt (h : rank < 2 ^ 52 * (exponent + 1)) : scaled rank < 2 ^ (52 + exponent) := by
  have hs := scaled_strictMono h
  rwa [← Nat.add_zero (2 ^ 52 * (exponent + 1)), scaled_normal (by decide), Nat.add_zero,
    ← Nat.pow_add] at hs

end ArgTree.Binary64
