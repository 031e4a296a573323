import ArgTree.Proofs.Number.Texts

namespace ArgTree

namespace Digits

-- The digits of a number do not begin with a zero, unless that is all there is.
theorem eq_zero_of_head_ofNat (h : (ofNat n).head? = some '0') : ofNat n = ['0'] := by
  fun_induction ofNat n
  case case1 => simp_all
  case case2 n hn hi =>
    rw [List.head?_append_of_ne_nil _ (ofNat_ne_nil _)] at h
    have hz : n / 10 = 0 := by rw [← toNat_ofNat (n / 10), hi h]; rfl
    omega

end Digits

namespace Decimal.Denotes

variable {d : Decimal}

theorem head_ne_zero (h : d.Denotes rank) : d.digits.head? ≠ some '0' := by
  intro hz
  obtain ⟨ds, hd⟩ := List.head?_eq_some_iff.mp hz
  have hv : Digits.toNat d.digits = Digits.toNat ds := by
    rw [hd, ← List.singleton_append, Digits.toNat_append]
    simp [Digits.toNat, Digits.digitValue]
  have hds : ∀ c ∈ ds, c.isDigit := fun c hc => h.digits c (hd ▸ List.mem_cons_of_mem _ hc)
  have hl := (Digits.count_le_iff (hv ▸ h.positive)).mpr (Digits.toNat_lt_pow_length hds)
  have hp := h.proper
  rw [hv, hd, List.length_cons] at hp
  omega

-- However great the power of ten is, the number is read.
theorem ofDecimal_eq_of_power (h : d.Denotes rank) :
    Binary64.ofDecimal negative (Digits.toNat d.digits) (d.point - d.digits.length) =
      .ofRank negative rank := by
  by_cases he : d.point - d.digits.length < 0
  case pos => simpa using h.ofDecimal_eq 0 (by omega) he
  case neg =>
    have ⟨scale, hp, hr⟩ := h.reads
    have hl := h.lower
    have hu := h.upper
    have hm := h.positive
    have ht : Digits.count (Digits.toNat d.digits) + (d.point - d.digits.length) = d.point := by
      rw [h.proper]
      omega
    have hq : Binary64.nearestRank
        (Digits.toNat d.digits * Nat.pow 10 (d.point - d.digits.length).toNat * Nat.pow 2 1074) 1 =
        rank := by
      have hs : scale + 0 = (d.point - d.digits.length).toNat + 1074 := by omega
      have hq := tens_eq (k := 1074) (Digits.toNat d.digits) hs
      rw [← Shortest.readsBack_iff.mp hr]
      exact Binary64.nearestRank_congr Nat.one_pos Shortest.five_pow_pos hq
    rw [Binary64.ofDecimal]
    simp only [ht]
    rw [if_neg (by omega), if_neg (by omega), if_pos (by omega), hq]

end Decimal.Denotes

namespace FloatNumeral

-- A power of ten as it is written with its sign.
theorem exists_power (p : Int) : ∃ sign ds,
    (if true ∧ 0 ≤ p then ['+'] else []) ++ Digits.ofInt p = sign :: ds ∧
      (sign = '+' ∨ sign = '-') ∧ ds ≠ [] ∧ (∀ c ∈ ds, c.isDigit) ∧
        exponent? ('e' :: sign :: ds) = some p := by
  have hl : 'e'.toLower = 'e' := by decide
  have hd (n : Nat) : (Digits.ofNat n).all Char.isDigit :=
    List.all_eq_true.mpr fun _ => Digits.isDigit_of_mem_ofNat
  cases p
  case ofNat n   =>
    refine ⟨'+', Digits.ofNat n, by simp [Digits.ofInt], .inl rfl, Digits.ofNat_ne_nil n,
      fun _ => Digits.isDigit_of_mem_ofNat, ?_⟩
    simp [exponent?, sign, hl, hd, Digits.ofNat_ne_nil, Digits.toNat_ofNat]
  case negSucc n =>
    refine ⟨'-', Digits.ofNat (n + 1), by simp [Digits.ofInt], .inr rfl, Digits.ofNat_ne_nil _,
      fun _ => Digits.isDigit_of_mem_ofNat, ?_⟩
    simp [exponent?, sign, hl, hd, Digits.ofNat_ne_nil, Digits.toNat_ofNat, Int.negSucc_eq]

theorem decimal?_of_exponent (hw : ∀ c ∈ whole, c.isDigit) (hn : whole ≠ [])
    (hf : ∀ c ∈ fraction, c.isDigit) (he : exponent? ('e' :: cs) = some e) (negative : Bool) :
    decimal? negative (whole ++ ((if fraction = [] then [] else '.' :: fraction) ++ 'e' :: cs)) =
      some (.ofDecimal negative (Digits.toNat (whole ++ fraction)) (e - fraction.length)) := by
  have hp : ¬('.' : Char).isDigit := by decide
  have hc : ¬('e' : Char).isDigit := by decide
  split
  case isTrue h =>
    subst h
    simp [decimal?, List.takeWhile_append_of_pos hw, List.dropWhile_append_of_pos hw, hc, hn, he]
  case isFalse h =>
    simp [decimal?, List.takeWhile_append_of_pos hw, List.dropWhile_append_of_pos hw,
      List.takeWhile_append_of_pos hf, List.dropWhile_append_of_pos hf, hp, hc, hn, he]

end FloatNumeral

namespace FloatText

variable {d : Decimal}

-- Digits around a point begin with a zero only if the point comes next.
theorem exists_of_head_positional (h : d.Denotes rank) (hz : (positional d).head? = some '0') :
    ∃ cs, positional d = '0' :: '.' :: cs := by
  obtain ⟨c, ds, hd⟩ := List.exists_cons_of_ne_nil h.ne_nil
  have hc : c ≠ '0' := by
    rintro rfl
    exact h.head_ne_zero (hd ▸ rfl)
  by_cases hp : d.point ≤ 0
  case pos => exact ⟨List.replicate (-d.point).toNat '0' ++ d.digits, by simp [positional, hp]⟩
  case neg =>
    obtain ⟨k, hk⟩ : ∃ k : Nat, d.point.toNat = k + 1 := ⟨d.point.toNat - 1, by omega⟩
    rw [positional, if_neg hp, hd, hk] at hz
    split at hz <;> simp [hc] at hz

theorem scientific_eq (hd : d.digits = c :: fraction)
    (hp : (if true ∧ 0 ≤ d.point - 1 then ['+'] else []) ++ Digits.ofInt (d.point - 1) =
      sign :: ds) :
    scientific true d =
      [c] ++ ((if fraction = [] then [] else '.' :: fraction) ++ 'e' :: sign :: ds) := by
  rw [← hp, scientific, hd]
  simp

theorem decimal?_scientific (h : d.Denotes rank) (negative : Bool) :
    FloatNumeral.decimal? negative (scientific true d) = some (.ofRank negative rank) := by
  obtain ⟨c, fraction, hd⟩ := List.exists_cons_of_ne_nil h.ne_nil
  obtain ⟨sign, ds, hp, _, _, _, he⟩ := FloatNumeral.exists_power (d.point - 1)
  have ⟨hc, hf⟩ := List.forall_mem_cons.mp (hd ▸ h.digits)
  have hl : d.point - 1 - fraction.length = d.point - d.digits.length := by
    rw [hd, List.length_cons]
    omega
  rw [scientific_eq hd hp, FloatNumeral.decimal?_of_exponent (List.forall_mem_singleton.mpr hc)
    (List.cons_ne_nil c []) hf he, List.singleton_append, ← hd, hl, h.ofDecimal_eq_of_power]

theorem float?_scientific (h : d.Denotes rank) (negative : Bool) :
    FloatNumeral.float? ((if negative then ['-'] else []) ++ scientific true d) =
      .ok (.ofRank negative rank) := by
  have hv := decimal?_scientific h negative
  obtain ⟨c, fraction, hd⟩ := List.exists_cons_of_ne_nil h.ne_nil
  obtain ⟨sign, ds, hp, _⟩ := FloatNumeral.exists_power (d.point - 1)
  have hc : c.isDigit := h.digits c (hd ▸ List.mem_cons_self)
  rw [scientific_eq hd hp, List.singleton_append] at hv ⊢
  exact FloatNumeral.float?_of_decimal? hc hv

theorem magnitude_json (h : rank < Binary64.infinityRank) :
    rank = 0 ∧ json.magnitude rank = ['0', '.', '0'] ∨ ∃ d : Decimal, d.Denotes rank ∧
      (json.magnitude rank = positional d ∨ json.magnitude rank = scientific true d) := by
  by_cases h0 : rank = 0
  case pos => exact .inl ⟨h0, by rw [magnitude, if_pos h0]⟩
  case neg =>
    refine .inr ⟨_, Decimal.shortest_denotes (Nat.pos_of_ne_zero h0) h .even, ?_⟩
    rw [magnitude, if_neg h0]
    dsimp only [json]
    split
    case isTrue  => exact .inl rfl
    case isFalse => exact .inr rfl

-- What is written for a finite float is read as that float, with an exponent and without one.
theorem float?_json (negative : Bool) (rank : Fin (2047 * Nat.pow 2 52)) :
    FloatNumeral.float? (json.write (.finite negative rank)) = .ok (.finite negative rank) := by
  have hf : FloatNumeral.float? ((if negative then ['-'] else []) ++ json.magnitude rank) =
      .ok (.ofRank negative rank) := by
    rcases magnitude_json rank.isLt with ⟨h0, hm⟩ | ⟨d, hd, hm | hm⟩ <;> rw [hm]
    case inl     => exact FloatNumeral.float?_of_isPositional (h0 ▸ isPositional_zero) negative
    case inr.inl => exact FloatNumeral.float?_of_isPositional (isPositional_positional hd) negative
    case inr.inr => exact float?_scientific hd negative
  rwa [Binary64.ofRank, dif_pos rank.isLt] at hf

end FloatText

end ArgTree
