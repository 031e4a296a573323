import ArgTree.Proofs.Number.Digits
import ArgTree.Proofs.Number.Nearest
import ArgTree.Number.Shortest

namespace ArgTree

namespace Shortest

theorem pow_pos {b n : Nat} (hb : 0 < b) : 0 < Nat.pow b n :=
  Nat.pow_pos hb

theorem five_pow_pos : 0 < Nat.pow 5 1074 := by
  apply pow_pos
  decide

theorem readsBack_iff : readsBack rank n ↔ Binary64.nearestRank n (Nat.pow 5 1074) = rank := by
  rw [readsBack, decide_eq_true_iff]

theorem readsBack_units (h : rank ≤ Binary64.infinityRank) : readsBack rank (units rank) := by
  rw [readsBack_iff]
  exact Binary64.nearestRank_scaled h five_pow_pos

theorem neighbour_eq_some (h : neighbour tie exact step lower l u = some n) :
    n = lower ∧ l ∨ n = lower + 1 ∧ u := by
  cases l <;> cases u <;> simp only [neighbour] at h <;> grind

-- What is chosen on a grid is next to the exact value, and is read as it.
theorem onGrid_eq_some (h : onGrid tie rank step = some n) :
    readsBack rank (n * step) ∧ (n = units rank / step ∨ n = units rank / step + 1) := by
  rcases neighbour_eq_some h with ⟨rfl, hr⟩ | ⟨rfl, hr⟩
  · exact ⟨hr, .inl rfl⟩
  · exact ⟨hr, .inr rfl⟩

theorem onCoarsest_spec (h : rank ≤ Binary64.infinityRank)
    (ho : onCoarsest tie rank places = (n, p)) : p ≤ places ∧ readsBack rank (n * Nat.pow 10 p) ∧
      (n = units rank / Nat.pow 10 p ∨ n = units rank / Nat.pow 10 p + 1) := by
  induction places
  case zero =>
    rw [onCoarsest] at ho
    obtain ⟨rfl, rfl⟩ := Prod.mk.inj ho
    rw [Nat.pow_eq, Nat.pow_zero, Nat.mul_one, Nat.div_one]
    exact ⟨Nat.le_refl _, readsBack_units h, .inl rfl⟩
  case succ places hi =>
    rw [onCoarsest] at ho
    cases hg : onGrid tie rank (Nat.pow 10 (places + 1)) <;> rw [hg] at ho
    case none =>
      have ⟨hp, hr⟩ := hi ho
      exact ⟨Nat.le_succ_of_le hp, hr⟩
    case some m =>
      obtain ⟨rfl, rfl⟩ := Prod.mk.inj ho
      exact ⟨Nat.le_refl _, onGrid_eq_some hg⟩

theorem le_units (h : 0 < rank) : Nat.pow 5 1074 ≤ units rank := by
  rw [units]
  exact Nat.le_mul_of_pos_left _ (Nat.zero_lt_of_lt (Binary64.scaled_strictMono h))

theorem units_lt (h : rank < Binary64.infinityRank) :
    units rank < 2 ^ (52 + 2046) * Nat.pow 5 1074 := by
  rw [units]
  exact Nat.mul_lt_mul_of_pos_right (Binary64.scaled_lt h) five_pow_pos

-- What is next to a number on a grid that is not too coarse is not far from it.
theorem near_of_neighbour {u step n : Nat} (hs : step ≤ u) (hp : 0 < step)
    (hn : n = u / step ∨ n = u / step + 1) : u < 2 * (n * step) ∧ n * step ≤ 2 * u := by
  have hq : step ≤ u / step * step := Nat.le_mul_of_pos_left _ (Nat.div_pos hs hp)
  have hm : u / step * step + u % step = u := Nat.div_add_mod' u step
  have hr : u % step < step := Nat.mod_lt u hp
  rcases hn with rfl | rfl
  · omega
  · rw [Nat.add_mul, Nat.one_mul]
    omega

-- So the number of digits of what is chosen is that of a magnitude of binary64.
theorem count_bounds (hu : Nat.pow 5 1074 ≤ u) (hl : u < 2 ^ (52 + 2046) * Nat.pow 5 1074)
    (hn : u < 2 * n) (hm : n ≤ 2 * u) : 674 ≤ Digits.count n ∧ Digits.count n ≤ 1474 := by
  have hb : 2 * 10 ^ 673 ≤ Nat.pow 5 1074 := by decide +kernel
  have ha : 2 * (2 ^ (52 + 2046) * Nat.pow 5 1074) ≤ 10 ^ 1474 := by decide +kernel
  generalize Nat.pow 5 1074 = k at *
  generalize 2 ^ (52 + 2046) * k = l at *
  generalize hc : 10 ^ 673 = c at *
  generalize hd : 10 ^ 1474 = d at *
  have h0 : n ≠ 0 := by omega
  refine ⟨?_, (Digits.count_le_iff h0).mpr (by omega)⟩
  exact Nat.lt_of_not_le (mt (Digits.count_le_iff h0).mp (by omega))

end Shortest

-- The decimal is read as the magnitude of a rank, and is in the reach of binary64.
structure Decimal.Denotes (d : Decimal) (rank : Nat) : Prop where
  digits   : ∀ c ∈ d.digits, c.isDigit
  positive : Digits.toNat d.digits ≠ 0
  proper   : Digits.count (Digits.toNat d.digits) = d.digits.length
  lower    : -400 ≤ d.point
  upper    : d.point ≤ 400
  reads    : ∃ scale : Nat, d.point = d.digits.length + scale - 1074 ∧
               Shortest.readsBack rank (Digits.toNat d.digits * Nat.pow 10 scale)

namespace Decimal

-- A number on a decimal grid whose zeros at the end are dropped is still the same number.
theorem denotes_of_readsBack (hb : Shortest.readsBack rank (n * Nat.pow 10 places)) (hn : n ≠ 0)
    (hl : 674 ≤ Digits.count (n * Nat.pow 10 places))
    (hu : Digits.count (n * Nat.pow 10 places) ≤ 1474) :
    Denotes { digits := ((Digits.ofNat n).reverse.dropWhile (· = '0')).reverse
              point  := (Digits.ofNat n).length + places - 1074 } rank := by
  have ⟨k, he⟩ := Digits.exists_eq_append_zeros (Digits.ofNat n)
  generalize ((Digits.ofNat n).reverse.dropWhile (· = '0')).reverse = ds at *
  have hv : n = Digits.toNat ds * 10 ^ k := by
    rw [← Digits.toNat_ofNat n, he, Digits.toNat_append, Digits.toNat_replicate_zero,
      List.length_replicate, Nat.add_zero]
  have hd : Digits.toNat ds ≠ 0 := fun h0 => hn (by rw [hv, h0, Nat.zero_mul])
  have hlen : (Digits.ofNat n).length = ds.length + k := by
    rw [he, List.length_append, List.length_replicate]
  have hc : Digits.count (Digits.toNat ds) = ds.length := by
    have := Digits.length_ofNat n
    rw [hlen, hv, Digits.count_mul_pow hd] at this
    omega
  rw [Nat.pow_eq, Digits.count_mul_pow hn, ← Digits.length_ofNat] at hl hu
  refine ⟨fun c hc => ?_, hd, hc, by simp only; omega, by simp only; omega, k + places, ?_, ?_⟩
  case refine_1 => exact Digits.isDigit_of_mem_ofNat (n := n) (he ▸ List.mem_append_left _ hc)
  case refine_2 => simp only [hlen]; omega
  case refine_3 =>
    rw [Nat.pow_eq] at hb ⊢
    rwa [Nat.pow_add, ← Nat.mul_assoc, ← hv]

theorem shortest_denotes (h : 0 < rank) (hr : rank < Binary64.infinityRank) (tie : Tie) :
    (shortest tie rank).Denotes rank := by
  rw [shortest]
  generalize hc : Shortest.onCoarsest tie rank (Digits.count (Shortest.units rank) - 1) = grid
  obtain ⟨n, p⟩ := grid
  have ⟨hp, hb, hn⟩ := Shortest.onCoarsest_spec (Nat.le_of_lt hr) hc
  have hu := Shortest.le_units h
  have h0 : Shortest.units rank ≠ 0 := Nat.ne_of_gt (Nat.lt_of_lt_of_le Shortest.five_pow_pos hu)
  have hs : Nat.pow 10 p ≤ Shortest.units rank :=
    (Nat.pow_le_pow_right (by decide) hp).trans (Digits.pow_count_le h0)
  have ⟨hl, hm⟩ := Shortest.near_of_neighbour hs (Shortest.pow_pos (by decide)) hn
  have ⟨hcl, hcu⟩ := Shortest.count_bounds hu (Shortest.units_lt hr) hl hm
  have hn0 : n ≠ 0 := by
    rintro rfl
    rw [Nat.zero_mul] at hl
    exact Nat.not_lt_zero _ hl
  exact denotes_of_readsBack hb hn0 hcl hcu

end Decimal

end ArgTree
