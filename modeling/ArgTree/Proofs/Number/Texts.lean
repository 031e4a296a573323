import ArgTree.Proofs.Number.Shortest
import ArgTree.Number.FloatText
import ArgTree.Number.FloatNumeral

namespace ArgTree

theorem tens_eq (m : Nat) (h : scale + places = shift + k) :
    m * 10 ^ shift * Nat.pow 2 k * Nat.pow 5 k = m * Nat.pow 10 scale * Nat.pow 10 places := by
  simp only [Nat.pow_eq]
  rw [Nat.mul_assoc (m * 10 ^ shift), ← Nat.mul_pow, Nat.mul_assoc, ← Nat.pow_add,
    Nat.mul_assoc, ← Nat.pow_add, h]

-- However the digits are spread over both sides of the point, the same number is read.
theorem Decimal.Denotes.ofDecimal_eq {d : Decimal} (h : d.Denotes rank) (shift : Nat)
    (he : e = d.point - d.digits.length - shift) (hn : e < 0) :
    Binary64.ofDecimal negative (Digits.toNat d.digits * 10 ^ shift) e = .ofRank negative rank := by
  have ⟨scale, hp, hr⟩ := h.reads
  have hm : Digits.toNat d.digits * 10 ^ shift ≠ 0 := Nat.mul_ne_zero h.positive (by positivity)
  have ht : Digits.count (Digits.toNat d.digits * 10 ^ shift) + e = d.point := by
    rw [Digits.count_mul_pow h.positive, h.proper]
    omega
  have hl := h.lower
  have hu := h.upper
  have hq : Binary64.nearestRank (Digits.toNat d.digits * 10 ^ shift * Nat.pow 2 1074)
      (Nat.pow 10 (-e).toNat) = rank := by
    have hs : scale + (-e).toNat = shift + 1074 := by omega
    have hd : 0 < Nat.pow 10 (-e).toNat := Shortest.pow_pos (by decide)
    have hq := tens_eq (k := 1074) (Digits.toNat d.digits) hs
    rw [← Shortest.readsBack_iff.mp hr]
    exact Binary64.nearestRank_congr hd Shortest.five_pow_pos hq
  rw [Binary64.ofDecimal]
  simp only [ht]
  rw [if_neg (by omega), if_neg (by omega), if_neg (by omega), hq]

-- A text is read as the magnitude of a rank, behind either sign: it has digits on both sides of a
-- point.
structure IsPositional (cs : List Char) (rank : Nat) : Prop where
  intro ::
  exists_digits : ∃ whole fraction, cs = whole ++ '.' :: fraction ∧
    whole ≠ [] ∧ (∀ c ∈ whole, c.isDigit) ∧ fraction ≠ [] ∧ (∀ c ∈ fraction, c.isDigit) ∧
    ∀ negative, Binary64.ofDecimal negative (Digits.toNat (whole ++ fraction)) (-fraction.length) =
      .ofRank negative rank

theorem Decimal.Denotes.ne_nil {d : Decimal} (h : d.Denotes rank) : d.digits ≠ [] := by
  intro hn
  have := h.positive
  simp [hn, Digits.toNat] at this

-- The digits may have zeros in front of them, and as many behind them as `shift` says.
theorem Decimal.Denotes.isPositional {d : Decimal} {shift : Nat} (h : d.Denotes rank)
    (hw : whole ≠ []) (hwd : ∀ c ∈ whole, c.isDigit)
    (hf : fraction ≠ []) (hfd : ∀ c ∈ fraction, c.isDigit)
    (hv : Digits.toNat (whole ++ fraction) = Digits.toNat d.digits * 10 ^ shift)
    (he : (-fraction.length : Int) = d.point - d.digits.length - shift) :
    IsPositional (whole ++ '.' :: fraction) rank := by
  have hl : 0 < fraction.length := List.length_pos_iff.mpr hf
  exact ⟨whole, fraction, rfl, hw, hwd, hf, hfd, fun _ => hv ▸ h.ofDecimal_eq shift he (by omega)⟩

namespace FloatText

section

variable {d : Decimal} (h : d.Denotes rank)

include h

-- The point is in front of the digits, behind them or among them.
theorem isPositional_of_point_nonpos (hp : d.point ≤ 0) :
    IsPositional ('0' :: '.' :: List.replicate (-d.point).toNat '0' ++ d.digits) rank := by
  have hd : ∀ c ∈ List.replicate (-d.point).toNat '0' ++ d.digits, c.isDigit :=
    List.forall_mem_append.mpr ⟨fun _ => Digits.isDigit_of_mem_replicate, h.digits⟩
  have hv : Digits.toNat (['0'] ++ (List.replicate (-d.point).toNat '0' ++ d.digits)) =
      Digits.toNat d.digits * 10 ^ 0 := by
    rw [← List.append_assoc, Digits.toNat_append, Digits.toNat_append, Digits.toNat_replicate_zero]
    simp [Digits.toNat, Digits.digitValue]
  exact h.isPositional (by simp) (List.forall_mem_singleton.mpr rfl)
    (by simp [h.ne_nil]) hd hv (by simp; omega)

theorem isPositional_of_length_le_point (hg : d.digits.length ≤ d.point) :
    IsPositional (d.digits ++ List.replicate (d.point - d.digits.length).toNat '0' ++ ['.', '0'])
      rank := by
  have he : (d.point - d.digits.length).toNat + d.digits.length = d.point := by omega
  generalize (d.point - d.digits.length).toNat = k at he ⊢
  have hd : ∀ c ∈ d.digits ++ List.replicate k '0', c.isDigit :=
    List.forall_mem_append.mpr ⟨h.digits, fun _ => Digits.isDigit_of_mem_replicate⟩
  have hv : Digits.toNat (d.digits ++ List.replicate k '0' ++ ['0']) =
      Digits.toNat d.digits * 10 ^ (k + 1) := by
    rw [List.append_assoc, ← List.replicate_succ', Digits.toNat_append,
      Digits.toNat_replicate_zero, List.length_replicate, Nat.add_zero]
  exact h.isPositional (by simp [h.ne_nil]) hd (by simp)
    (List.forall_mem_singleton.mpr rfl) hv (by simp; omega)

theorem isPositional_of_point_lt_length (hp : 0 < d.point) (hg : d.point < d.digits.length) :
    IsPositional (d.digits.take d.point.toNat ++ '.' :: d.digits.drop d.point.toNat) rank := by
  obtain ⟨k, hk⟩ : ∃ k : Nat, d.point = k := ⟨d.point.toNat, by omega⟩
  rw [hk, Int.toNat_natCast]
  have hw : d.digits.take k ≠ [] := List.ne_nil_of_length_pos (by simp; omega)
  have hf : d.digits.drop k ≠ [] := List.ne_nil_of_length_pos (by simp; omega)
  have hv : Digits.toNat (d.digits.take k ++ d.digits.drop k) = Digits.toNat d.digits * 10 ^ 0 := by
    simp
  exact h.isPositional hw (fun c hc => h.digits c (List.mem_of_mem_take hc)) hf
    (fun c hc => h.digits c (List.mem_of_mem_drop hc)) hv (by simp; omega)

theorem isPositional_positional : IsPositional (positional d) rank := by
  rw [positional]
  split
  case isTrue hp => exact isPositional_of_point_nonpos h hp
  case isFalse hp =>
    split
    case isTrue hg  => exact isPositional_of_length_le_point h hg
    case isFalse hg => exact isPositional_of_point_lt_length h (by omega) (by omega)

end

theorem isPositional_zero : IsPositional ['0', '.', '0'] 0 := by
  refine ⟨['0'], ['0'], rfl, nofun, List.forall_mem_singleton.mpr rfl, nofun,
    List.forall_mem_singleton.mpr rfl, fun negative => ?_⟩
  have hv : Digits.toNat (['0'] ++ ['0']) = 0 := rfl
  rw [hv, Binary64.ofDecimal, if_pos (.inl rfl)]

theorem isPositional_magnitude (h : rank < Binary64.infinityRank) :
    IsPositional (expression.magnitude rank) rank := by
  rw [magnitude]
  split
  case isTrue h0  => exact h0 ▸ isPositional_zero
  case isFalse h0 =>
    exact isPositional_positional (Decimal.shortest_denotes (Nat.pos_of_ne_zero h0) h _)

end FloatText

namespace FloatNumeral

-- Digits on both sides of a point are a decimal number, if there are some behind it.
theorem decimal?_of_digits (hw : ∀ c ∈ whole, c.isDigit) (hn : fraction ≠ [])
    (hf : ∀ c ∈ fraction, c.isDigit) (negative : Bool) :
    decimal? negative (whole ++ '.' :: fraction) = some
      (.ofDecimal negative (Digits.toNat (whole ++ fraction)) (-fraction.length)) := by
  have hp : ¬('.' : Char).isDigit := by decide
  have ht : (whole ++ '.' :: fraction).takeWhile Char.isDigit = whole := by
    rw [List.takeWhile_append_of_pos hw, List.takeWhile_cons_of_neg hp, List.append_nil]
  have hd : (whole ++ '.' :: fraction).dropWhile Char.isDigit = '.' :: fraction := by
    rw [List.dropWhile_append_of_pos hw, List.dropWhile_cons_of_neg hp]
  have ht' : fraction.takeWhile Char.isDigit = fraction := List.takeWhile_eq_self_iff.mpr hf
  have hd' : fraction.dropWhile Char.isDigit = [] := List.dropWhile_eq_nil_iff.mpr hf
  simp [decimal?, ht, hd, ht', hd', hn, exponent?]

theorem decimal?_of_isPositional (h : IsPositional cs rank) (negative : Bool) :
    decimal? negative cs = some (.ofRank negative rank) := by
  obtain ⟨whole, fraction, rfl, _, hw, hn, hf, hv⟩ := h
  rw [decimal?_of_digits hw hn hf, hv]

theorem lower_ne_of_mem {cs : List Char} {name : String} (h : c ∈ cs)
    (hn : c.toLower ∉ name.toList) : String.ofList (cs.map Char.toLower) ≠ name := by
  rintro rfl
  rw [String.toList_ofList] at hn
  exact hn (List.mem_map_of_mem h)

theorem lower_ne_of_point {cs : List Char} {name : String} (h : '.' ∈ cs) (hn : '.' ∉ name.toList) :
    String.ofList (cs.map Char.toLower) ≠ name :=
  lower_ne_of_mem h hn

theorem toLower_of_isDigit {c : Char} (h : c.isDigit) : c.toLower = c := by
  have hc : ¬(c.val ≥ 'A'.val ∧ c.val ≤ 'Z'.val) := by
    simp only [Char.isDigit, Bool.and_eq_true, decide_eq_true_eq, UInt32.le_iff_toNat_le] at h
    have hn : '9'.val.toNat < 'A'.val.toNat := by decide
    rw [ge_iff_le, UInt32.le_iff_toNat_le]
    have hu : c.val.toNat ≤ '9'.val.toNat := h.right
    omega
  exact dif_neg hc

theorem sign_of_isDigit {c : Char} (h : c.isDigit) (cs : List Char) (negative : Bool) :
    sign ((if negative then ['-'] else []) ++ c :: cs) = (negative, c :: cs) := by
  cases negative
  case true  => rfl
  case false =>
    simp only [sign]
    split
    case h_1 he => cases he; contradiction
    case h_2 he => cases he; contradiction
    case h_3    => rfl

-- A number that begins with a digit behind an optional sign is no name of another float.
theorem float?_of_decimal? (hc : c.isDigit) (h : decimal? negative (c :: cs) = some f) :
    float? ((if negative then ['-'] else []) ++ c :: cs) = .ok f := by
  have hn : (if negative then ['-'] else []) ++ c :: cs ≠ [] := by simp
  have hw (name : String) (hd : ∀ c ∈ name.toList, ¬c.isDigit := by simp) :
      String.ofList ((c :: cs).map Char.toLower) ≠ name :=
    lower_ne_of_mem List.mem_cons_self fun hm => hd c (toLower_of_isDigit hc ▸ hm) hc
  rw [float?, if_neg hn]
  simp only [sign_of_isDigit hc, hw "inf", hw "infinity", hw "nan", or_self, ↓reduceIte, h]

theorem float?_of_isPositional (h : IsPositional cs rank) (negative : Bool) :
    float? ((if negative then ['-'] else []) ++ cs) = .ok (.ofRank negative rank) := by
  have hd := decimal?_of_isPositional h negative
  obtain ⟨whole, fraction, rfl, hn, hw, -⟩ := h
  obtain ⟨c, cs, rfl⟩ := List.exists_cons_of_ne_nil hn
  exact float?_of_decimal? (hw c List.mem_cons_self) hd

-- What is written for a finite float is read as that float.
theorem float?_write (negative : Bool) (rank : Fin (2047 * Nat.pow 2 52)) :
    float? (FloatText.expression.write (.finite negative rank)) = .ok (.finite negative rank) := by
  have h := FloatText.isPositional_magnitude rank.isLt
  have hf := float?_of_isPositional h negative
  rwa [Binary64.ofRank, dif_pos rank.isLt] at hf

end FloatNumeral

namespace Numeral

theorem magnitude_of_digits (ds : List Char) (hd : ∀ c ∈ cs, c.isDigit)
    (hl : Digits.toNat (ds ++ cs) ≤ limit) :
    magnitude limit overflow (Digits.toNat ds) cs = .ok (Digits.toNat (ds ++ cs)) := by
  induction cs generalizing ds
  case nil => simp [magnitude]
  case cons c cs hi =>
    have ha : ds ++ c :: cs = ds ++ [c] ++ cs := by simp
    rw [ha] at hl ⊢
    have hle : Digits.toNat (ds ++ [c]) ≤ Digits.toNat (ds ++ [c] ++ cs) := by
      rw [Digits.toNat_append (ds ++ [c])]
      exact Nat.le_add_right_of_le (Nat.le_mul_of_pos_right _ (by positivity))
    have hc : c.isDigit := hd c List.mem_cons_self
    have hi := hi (ds ++ [c]) (fun c hc => hd c (List.mem_cons_of_mem _ hc)) hl
    rw [magnitude, ← Digits.toNat_append_singleton, if_neg (by simp [hc]), if_neg (by omega), hi]

theorem magnitude_of_overflow (ds : List Char) (hd : ∀ c ∈ cs, c.isDigit)
    (hn : Digits.toNat ds ≤ limit) (hl : limit < Digits.toNat (ds ++ cs)) :
    magnitude limit overflow (Digits.toNat ds) cs = .error overflow := by
  induction cs generalizing ds
  case nil =>
    rw [List.append_nil] at hl
    omega
  case cons c cs hi =>
    rw [List.append_cons] at hl
    have hc : c.isDigit := hd c List.mem_cons_self
    rw [magnitude, if_neg (by simp [hc]), ← Digits.toNat_append_singleton]
    split
    case isTrue     => rfl
    case isFalse hs =>
      exact hi (ds ++ [c]) (fun c hc => hd c (List.mem_cons_of_mem _ hc)) (Nat.le_of_not_lt hs) hl

-- A row of digits is read as what it stands for, unless that is past the limit.
theorem unsigned_of_digits (hn : cs ≠ []) (hd : ∀ c ∈ cs, c.isDigit) (limit : Nat)
    (overflow : IntegerError) : unsigned limit overflow cs =
      if limit < Digits.toNat cs then .error overflow else .ok (Digits.toNat cs) := by
  have hu : unsigned limit overflow cs = magnitude limit overflow 0 cs := by
    rw [unsigned]
    exact hn
  rw [hu]
  split
  case isTrue hl  => exact magnitude_of_overflow [] hd (Nat.zero_le _) hl
  case isFalse hl => exact magnitude_of_digits [] hd (Nat.le_of_not_lt hl)

theorem unsigned_ofNat (h : n ≤ limit) : unsigned limit overflow (Digits.ofNat n) = .ok n := by
  rw [unsigned_of_digits (Digits.ofNat_ne_nil n) (fun _ => Digits.isDigit_of_mem_ofNat),
    Digits.toNat_ofNat, if_neg (Nat.not_lt_of_le h)]

theorem integer?_of_digits (hn : cs ≠ []) (hd : ∀ c ∈ cs, c.isDigit) : integer? cs =
    (unsigned (Nat.pow 2 63 - 1) .tooLarge cs).map fun n => Int64.ofInt n := by
  rw [integer?]
  · exact hn
  · rintro cs rfl
    exact Bool.false_ne_true (hd '-' List.mem_cons_self)
  · rintro cs rfl
    exact Bool.false_ne_true (hd '+' List.mem_cons_self)

-- What is written for an integer is read as that integer.
theorem integer?_ofInt (n : Int64) : integer? (Digits.ofInt n.toInt) = .ok n := by
  have hl : -2 ^ 63 ≤ n.toInt := n.le_toInt
  have hu : n.toInt < 2 ^ 63 := n.toInt_lt
  have he := Int64.ofInt_toInt n
  cases hn : n.toInt <;> rw [hn] at hl hu he
  case ofNat k =>
    have hk : k ≤ Nat.pow 2 63 - 1 := by
      have : Nat.pow 2 63 = 2 ^ 63 := rfl
      have hu : (k : Int) < 2 ^ 63 := hu
      omega
    have hd : ∀ c ∈ Digits.ofNat k, c.isDigit := fun _ => Digits.isDigit_of_mem_ofNat
    rw [Digits.ofInt, integer?_of_digits (Digits.ofNat_ne_nil k) hd, unsigned_ofNat hk]
    exact congrArg Except.ok he
  case negSucc k =>
    have hk : k + 1 ≤ Nat.pow 2 63 := by
      have : Nat.pow 2 63 = 2 ^ 63 := rfl
      omega
    rw [Digits.ofInt, integer?, unsigned_ofNat hk]
    exact congrArg Except.ok he

end Numeral

end ArgTree
