import ArgTree.Json
import ArgTree.Proofs.Json.Unambiguity
import ArgTree.Proofs.Number.Exponents
import ArgTree.Proofs.Written.Spelled

namespace ArgTree.Json

open FloatText

theorem isWhole_ofNat (n : Nat) : IsWhole (Digits.ofNat n) :=
  ⟨fun _ => Digits.isDigit_of_mem_ofNat, Digits.ofNat_ne_nil n, Digits.eq_zero_of_head_ofNat⟩

theorem isInteger_ofInt (n : Int) : IsInteger (Digits.ofInt n) := by
  cases n
  case ofNat n   => exact ⟨[], _, rfl, .inl rfl, isWhole_ofNat n⟩
  case negSucc n => exact ⟨['-'], _, rfl, .inr rfl, isWhole_ofNat (n + 1)⟩

variable {d : Decimal} {sign : List Char}

theorem isReal_positional (h : d.Denotes rank) (hs : sign = [] ∨ sign = ['-']) :
    IsReal (sign ++ positional d) := by
  obtain ⟨whole, fraction, he, hn, hw, hnf, hf, -⟩ := (isPositional_positional h).exists_digits
  have hp (hz : whole.head? = some '0') : whole = ['0'] := by
    have hh : (positional d).head? = some '0' := by rw [he, List.head?_append_of_ne_nil _ hn, hz]
    obtain ⟨cs, hc⟩ := exists_of_head_positional h hh
    obtain ⟨ds, rfl⟩ := List.head?_eq_some_iff.mp hz
    have ht : ds ++ '.' :: fraction = '.' :: cs := (List.cons.inj (he.symm.trans hc)).right
    cases ds
    case nil       => rfl
    case cons x ds =>
      obtain ⟨rfl, _⟩ := List.cons.inj ht
      exact absurd (hw '.' (by simp)) (by decide)
  exact ⟨sign, whole, '.' :: fraction, [], by simp [he], hs, ⟨hw, hn, hp⟩,
    .inr ⟨fraction, rfl, hnf, hf⟩, .inl rfl, .inl nofun⟩

theorem isReal_scientific (h : d.Denotes rank) (hs : sign = [] ∨ sign = ['-']) :
    IsReal (sign ++ scientific true d) := by
  obtain ⟨c, fraction, hd⟩ := List.exists_cons_of_ne_nil h.ne_nil
  obtain ⟨e, ds, hp, he, hn, hds, _⟩ := FloatNumeral.exists_power (d.point - 1)
  have ⟨hc, hf⟩ := List.forall_mem_cons.mp (hd ▸ h.digits)
  have hw : IsWhole [c] := by
    refine ⟨List.forall_mem_singleton.mpr hc, nofun, fun hz => ?_⟩
    rw [Option.some.inj hz]
  refine ⟨sign, [c], _, 'e' :: e :: ds, by rw [scientific_eq hd hp], hs, hw, ?_,
    .inr ⟨'e', [e], ds, rfl, .inl rfl, ?_, hn, hds⟩, .inr nofun⟩
  case refine_1 =>
    split
    case isTrue    => exact .inl rfl
    case isFalse h => exact .inr ⟨fraction, rfl, h, hf⟩
  case refine_2 => exact .inr (by rcases he with rfl | rfl <;> simp)

theorem isReal_write {f : Binary64} (h : f.isFinite) : IsReal (json.write f) := by
  cases f
  case nan | infinite => contradiction
  case finite negative rank =>
    have hs : (if negative then ['-'] else []) = [] ∨ (if negative then ['-'] else []) = ['-'] := by
      cases negative <;> simp
    have hw : json.write (.finite negative rank) =
        (if negative then ['-'] else []) ++ json.magnitude rank := rfl
    rw [hw]
    rcases magnitude_json rank.isLt with ⟨_, hm⟩ | ⟨d, hd, hm | hm⟩ <;> rw [hm]
    case inl     =>
      have hz : IsWhole ['0'] := ⟨by simp, nofun, fun _ => rfl⟩
      exact ⟨_, ['0'], ['.', '0'], [], rfl, hs, hz, .inr ⟨['0'], rfl, nofun, by simp⟩, .inl rfl,
        .inl nofun⟩
    case inr.inl => exact isReal_positional hd hs
    case inr.inr => exact isReal_scientific hd hs

theorem number_int (n : Int64) : Number (Digits.ofInt n.toInt) (.int n) :=
  .integer (isInteger_ofInt n.toInt) (Numeral.integer?_ofInt n)

theorem number_float {f : Binary64} (h : f.isFinite) : Number (json.write f) (.float f) := by
  refine .real (isReal_write h) ?_
  cases f
  case nan | infinite => contradiction
  case finite negative rank => exact float?_json negative rank

theorem isNumeric_of_isDigit {c : Char} (h : c.isDigit) : isNumeric c := by
  simp [isNumeric, h]

theorem IsReal.isNumeric (h : IsReal cs) : ∀ c ∈ cs, Json.isNumeric c := by
  obtain ⟨sign, whole, fraction, exponent, rfl, hs, hw, hf, he, _⟩ := h
  simp only [List.forall_mem_append]
  refine ⟨?sign, fun c hc => isNumeric_of_isDigit (hw.digits c hc), ?fraction, ?exponent⟩
  case sign     => rcases hs with rfl | rfl <;> simp [Json.isNumeric]
  case fraction =>
    rcases hf with rfl | ⟨ds, rfl, _, hd⟩
    · exact List.forall_mem_nil _
    · exact List.forall_mem_cons.mpr ⟨rfl, fun c hc => isNumeric_of_isDigit (hd c hc)⟩
  case exponent =>
    rcases he with rfl | ⟨e, sign, ds, rfl, he, hs, _, hd⟩
    · exact List.forall_mem_nil _
    · refine List.forall_mem_cons.mpr ⟨?_, List.forall_mem_append.mpr ⟨?_, fun c hc =>
        isNumeric_of_isDigit (hd c hc)⟩⟩
      · rcases he with rfl | rfl <;> rfl
      · rcases hs with rfl | rfl | rfl <;> simp [Json.isNumeric]

theorem Number.isNumeric (h : Number cs v) : ∀ c ∈ cs, Json.isNumeric c := by
  cases h with
  | integer hi _ =>
    intro c hc
    rcases hi.isDigit_or_eq hc with hd | rfl
    · exact isNumeric_of_isDigit hd
    · rfl
  | real hr _    => exact hr.isNumeric

-- A number in front of something else is read to its end.
theorem Number.phrase (h : Number cs v) (hr : ∀ c ∈ rest.head?, ¬Json.isNumeric c) :
    Phrase (cs ++ rest) v rest := by
  have ht : rest.takeWhile Json.isNumeric = [] := by cases rest <;> simp_all
  have hd : rest.dropWhile Json.isNumeric = rest := by cases rest <;> simp_all
  have hp : Phrase (cs ++ rest) v ((cs ++ rest).dropWhile Json.isNumeric) := by
    refine .number ?_
    rwa [List.takeWhile_append_of_pos h.isNumeric, ht, List.append_nil]
  rwa [List.dropWhile_append_of_pos h.isNumeric, hd] at hp

theorem hexValue?_hexDigit (h : n < 16) : hexValue? (hexDigit n) = some n := by
  have hh : ∀ n < 16, hexValue? (hexDigit n) = some n := by decide
  exact hh n h

theorem character_spelled (c : Char) (cs : List Char) : Character (character c ++ cs) c cs := by
  unfold character
  split
  case h_8 hq hb _ _ _ _ _ =>
    split
    case isTrue h  =>
      have hu : CodeUnit ('0' :: '0' :: hexDigit (c.toNat / 16) :: hexDigit (c.toNat % 16) :: cs)
          (((0 * 16 + 0) * 16 + c.toNat / 16) * 16 + c.toNat % 16) cs :=
        .intro rfl rfl (hexValue?_hexDigit (by omega)) (hexValue?_hexDigit (by omega))
      have hv : ((0 * 16 + 0) * 16 + c.toNat / 16) * 16 + c.toNat % 16 = c.toNat := by omega
      rw [hv] at hu
      exact .unit hu
    case isFalse h => exact .plain hq hb (Nat.le_of_not_lt h)
  all_goals exact .escaped rfl

theorem characters_spelled (s cs : List Char) :
    Characters (s.flatMap character ++ '"' :: cs) s cs := by
  induction s
  case nil         => exact .quote
  case cons c s ih =>
    rw [List.flatMap_cons, List.append_assoc]
    exact .cons (character_spelled c _) ih

theorem phrase_string (s : String) (rest : List Char) :
    Phrase (string s ++ rest) (.str s) rest := by
  have hp := Phrase.string (characters_spelled s.toList rest)
  rw [String.ofList_toList] at hp
  simpa [string] using hp

theorem skipBlanks_cons {c : Char} (h : isBlank c = false) (cs : List Char) :
    skipBlanks (c :: cs) = c :: cs :=
  List.dropWhile_cons_of_neg (by simp [h])

theorem not_isBlank_of_isNumeric {c : Char} (h : isNumeric c) : isBlank c = false := by
  by_contra hb
  simp only [isBlank, Bool.not_eq_false, Bool.or_eq_true, decide_eq_true_eq, or_assoc] at hb
  rcases hb with rfl | rfl | rfl | rfl <;> cases h

theorem Phrase.skipBlanks_eq (h : Phrase cs v ds) : skipBlanks cs = cs := by
  cases cs
  case nil       => rfl
  case cons c cs =>
    refine skipBlanks_cons ?_ cs
    rcases h.begins with rfl | rfl | rfl | hc
    case inr.inr.inr => exact not_isBlank_of_isNumeric hc
    all_goals rfl

theorem Items.single (h : Phrase cs v (']' :: ds)) : Items cs [v] ds :=
  .last (h.skipBlanks_eq.symm ▸ h) (skipBlanks_cons rfl ds)

theorem Items.cons (h : Phrase cs v (',' :: ds)) (hi : Items ds vs es) : Items cs (v :: vs) es :=
  .more (h.skipBlanks_eq.symm ▸ h) (skipBlanks_cons rfl ds) hi

theorem Member.of_phrase (k : String) (h : Phrase cs v ds) :
    Member (string k ++ ':' :: cs) (k, v) ds := by
  have hk := characters_spelled k.toList (':' :: cs)
  have hm : Member (string k ++ ':' :: cs) (String.ofList k.toList, v) ds := by
    refine .intro ?_ hk (skipBlanks_cons rfl cs) (h.skipBlanks_eq.symm ▸ h)
    have hb : isBlank '"' = false := rfl
    simp [string, skipBlanks_cons hb]
  rwa [String.ofList_toList] at hm

theorem Members.single (h : Member cs e ('}' :: ds)) : Members cs [e] ds :=
  .last h (skipBlanks_cons rfl ds)

theorem Members.cons (h : Member cs e (',' :: ds)) (hm : Members ds es fs) :
    Members cs (e :: es) fs :=
  .more h (skipBlanks_cons rfl ds) hm

mutual

-- Whatever follows but a character of a number, the text of a value is read to its end.
theorem phrase_write (v : Value) (h : Value.AllFloats (·.isFinite) v.leaves)
    (hr : ∀ c ∈ rest.head?, ¬isNumeric c) : Phrase (write v ++ rest) v rest := by
  cases v
  case str s   => exact phrase_string s rest
  case int n   => exact (number_int n).phrase hr
  case float f =>
    have hf : f.isFinite := h f List.mem_cons_self
    rw [write, float, if_pos hf]
    exact (number_float hf).phrase hr
  case list vs =>
    by_cases hn : vs = []
    case pos => subst hn; exact .noItems (skipBlanks_cons rfl rest)
    case neg =>
      have hi := items_write vs hn h rest
      simpa [write] using Phrase.items hi
  case map es  =>
    by_cases hn : es = []
    case pos => subst hn; exact .noMembers (skipBlanks_cons rfl rest)
    case neg =>
      have hm := members_write es hn h rest
      simpa [write] using Phrase.members hm

theorem items_write (vs : List Value) (hn : vs ≠ [])
    (h : Value.AllFloats (·.isFinite) (Value.leaves.items vs)) (rest : List Char) :
    Items (write.items vs ++ ']' :: rest) vs rest := by
  match vs with
  | []           => contradiction
  | [v]          =>
    have hv := Value.allFloats_leaves_items.mp h v List.mem_cons_self
    exact .single (phrase_write v hv (by simp [isNumeric]))
  | v :: w :: vs =>
    obtain ⟨hv, hvs⟩ := Value.allFloats_append.mp h
    have hi := items_write (w :: vs) (List.cons_ne_nil _ _) hvs rest
    have hp : Phrase (write v ++ ',' :: (write.items (w :: vs) ++ ']' :: rest)) v _ :=
      phrase_write v hv (by simp [isNumeric])
    simpa [write.items] using hi.cons hp

theorem members_write (es : List (String × Value)) (hn : es ≠ [])
    (h : Value.AllFloats (·.isFinite) (Value.leaves.entries es)) (rest : List Char) :
    Members (write.entries es ++ '}' :: rest) es rest := by
  match es with
  | []                => contradiction
  | [(k, v)]          =>
    have hv := Value.allFloats_leaves_entries.mp h (k, v) List.mem_cons_self
    have hp : Phrase (write v ++ '}' :: rest) v _ := phrase_write v hv (by simp [isNumeric])
    simpa [write.entries] using Members.single (.of_phrase k hp)
  | (k, v) :: e :: es =>
    obtain ⟨hv, hes⟩ := Value.allFloats_append.mp (Value.allFloats_cons_key.mp h)
    have hm := members_write (e :: es) (List.cons_ne_nil _ _) hes rest
    have hp : Phrase (write v ++ ',' :: (write.entries (e :: es) ++ '}' :: rest)) v _ :=
      phrase_write v hv (by simp [isNumeric])
    simpa [write.entries] using hm.cons (.of_phrase k hp)

end

theorem denotes_text (v : Value) (h : Value.AllFloats (·.isFinite) v.leaves) :
    Denotes (text v) v := by
  have hp : Phrase (write v ++ []) v [] := phrase_write v h nofun
  rw [List.append_nil] at hp
  refine ⟨[], ?_, rfl⟩
  rwa [text, String.toList_ofList, hp.skipBlanks_eq]

-- The text of a value denotes this value and no other one, so no two values have the same text.
theorem text_lossless (h : ∀ f, .scalar (.float f) ∈ v.leaves → f.isFinite) :
    (∀ w, Denotes (text v) w ↔ w = v) ∧
      ∀ w, (∀ f, .scalar (.float f) ∈ w.leaves → f.isFinite) → text w = text v → w = v := by
  have hv := denotes_text v h
  refine ⟨fun w => ⟨fun hw => hw.unique hv, fun he => he ▸ hv⟩, fun w hw he => ?_⟩
  exact (denotes_text w hw).unique (he ▸ hv)

theorem text_lossless_escapes :
    ∃ v : Value, (∀ f, .scalar (.float f) ∈ v.leaves → f.isFinite) ∧
      text v = "\x7b\"a\\\"\\n\":[5,1e+300,\"\\\\\\u0001\"],\"\":\x7b\x7d\x7d" ∧
        ∀ w, Denotes (text v) w ↔ w = v := by
  have hf : ∀ f, .scalar (.float f) ∈ (Value.map [("a\"\n", .list [.int 5,
      .float (.finite false 9094988921128908188), .str "\\\x01"]), ("", .map [])]).leaves →
        f.isFinite := by
    simp [Value.leaves, Value.leaves.items, Value.leaves.entries, Binary64.isFinite]
  exact ⟨_, hf, by decide +kernel, (text_lossless hf).left⟩

end ArgTree.Json
