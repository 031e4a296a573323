import Mathlib
import ArgTree.Number.Digits

namespace ArgTree.Digits

theorem count_eq_log (n : Nat) : count n = Nat.log 10 n + 1 := by
  fun_induction count n
  case case1 h    => rw [Nat.log_of_lt h]
  case case2 h hi =>
    have hp : 0 < Nat.log 10 _ := Nat.log_pos (by decide) (Nat.le_of_not_lt h)
    rw [hi, Nat.log_div_base, Nat.sub_add_cancel hp]

theorem count_mul_pow (h : n ≠ 0) (k : Nat) : count (n * 10 ^ k) = count n + k := by
  induction k
  case zero => simp
  case succ k hi =>
    rw [count_eq_log] at *
    rw [Nat.pow_succ, ← Nat.mul_assoc, Nat.log_mul_base (by decide) (by positivity)]
    omega

-- How many digits a number has says how great it is.
theorem count_le_iff (h : n ≠ 0) : count n ≤ k ↔ n < 10 ^ k := by
  rw [count_eq_log, Nat.add_one_le_iff, Nat.log_lt_iff_lt_pow (by decide) h]

theorem pow_count_le (h : n ≠ 0) : 10 ^ (count n - 1) ≤ n := by
  rw [count_eq_log, Nat.add_sub_cancel]
  exact Nat.pow_log_le_self 10 h

theorem toNat_append (as bs : List Char) :
    toNat (as ++ bs) = toNat as * 10 ^ bs.length + toNat bs := by
  induction bs using List.reverseRecOn
  case nil => simp [toNat]
  case append_singleton bs b hi =>
    rw [← List.append_assoc, toNat_append_singleton, hi, toNat_append_singleton,
      List.length_append, List.length_singleton, Nat.pow_succ]
    ring

theorem toNat_replicate_zero (k : Nat) : toNat (List.replicate k '0') = 0 := by
  induction k
  case zero      => rfl
  case succ k hi => rw [List.replicate_succ', toNat_append_singleton, hi]; rfl

theorem digitValue_lt (h : c.isDigit) : digitValue c < 10 := by
  simp only [Char.isDigit, Bool.and_eq_true, decide_eq_true_eq, UInt32.le_iff_toNat_le] at h
  have hn : '9'.toNat = '0'.toNat + 9 := rfl
  have hc : c.toNat ≤ '9'.toNat := h.right
  rw [digitValue]
  omega

-- What a row of digits stands for has no more digits than the row.
theorem toNat_lt_pow_length (h : ∀ c ∈ ds, c.isDigit) : toNat ds < 10 ^ ds.length := by
  induction ds using List.reverseRecOn
  case nil => exact Nat.one_pos
  case append_singleton ds d hi =>
    have ⟨hds, hd⟩ := List.forall_mem_append.mp h
    have := hi hds
    have := digitValue_lt (hd d List.mem_cons_self)
    rw [toNat_append_singleton, List.length_append, List.length_singleton, Nat.pow_succ]
    omega

theorem isDigit_of_mem_replicate (h : c ∈ List.replicate k '0') : c.isDigit := by
  rw [List.eq_of_mem_replicate h]
  rfl

-- The digits of a number without the zeros at their end.
theorem exists_eq_append_zeros (ds : List Char) :
    ∃ k, ds = (ds.reverse.dropWhile (· = '0')).reverse ++ List.replicate k '0' := by
  induction ds using List.reverseRecOn
  case nil => exact ⟨0, rfl⟩
  case append_singleton ds d hi =>
    rw [List.reverse_append, List.reverse_singleton, List.singleton_append]
    by_cases hd : d = '0'
    case neg => exact ⟨0, by simp [hd]⟩
    case pos =>
      have ⟨k, hk⟩ := hi
      refine ⟨k + 1, ?_⟩
      rw [List.dropWhile_cons_of_pos (by simpa using hd), List.replicate_succ', ← List.append_assoc,
        ← hk, hd]

end ArgTree.Digits
