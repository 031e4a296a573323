import ArgTree.Proofs.Lexing.Gluing

namespace ArgTree.Expression

-- The integer that digits behind a sign denote.
def denoted (sign digits : List Char) : Int :=
  if sign = ['-'] then -Digits.toNat digits else Digits.toNat digits

-- Where no token can be cut off, and why.
inductive Fails : List Char → LexCause → String → Prop
  | quote    : (∀ t, t <+: '"' :: cs → ¬IsQuote t) →
               Fails ('"' :: cs) (.refused "Unmatched quote") "\""
  | overflow : text.toList = sign ++ digits → IsSign sign → digits ≠ [] →
               (∀ c ∈ digits, c.isDigit) → (∀ c ∈ cs.head?, ¬c.isDigit) →
               (∀ t, t <+: text.toList ++ cs → ¬IsFloat t) →
               ¬(-2 ^ 63 ≤ denoted sign digits ∧ denoted sign digits < 2 ^ 63) →
               Fails (text.toList ++ cs) (.conversion (.integer text
                 (if sign = ['-'] then .tooSmall else .tooLarge))) text

open Digits Numeral in
theorem integer?_signed (hs : IsSign sign) (hn : digits ≠ []) (hd : ∀ c ∈ digits, c.isDigit) :
    integer? (sign ++ digits) =
      if -2 ^ 63 ≤ denoted sign digits ∧ denoted sign digits < 2 ^ 63 then
        .ok (Int64.ofInt (denoted sign digits))
      else
        .error (if sign = ['-'] then .tooSmall else .tooLarge) := by
  have hp : Nat.pow 2 63 = 2 ^ 63 := rfl
  have hpos : (unsigned (Nat.pow 2 63 - 1) .tooLarge digits).map (fun n => Int64.ofInt n) =
      if -2 ^ 63 ≤ (toNat digits : Int) ∧ (toNat digits : Int) < 2 ^ 63 then
        .ok (Int64.ofInt (toNat digits)) else .error .tooLarge := by
    rw [unsigned_of_digits hn hd]
    split
    case isTrue hl  => exact (if_neg (by omega)).symm
    case isFalse hl => exact (if_pos (by omega)).symm
  rcases hs with rfl | rfl | rfl
  case inl     => exact (integer?_of_digits hn hd).trans hpos
  case inr.inr => exact hpos
  case inr.inl =>
    rw [List.singleton_append, integer?, unsigned_of_digits hn hd, denoted, if_pos rfl, if_pos rfl]
    split
    case isTrue hl  => exact (if_neg (by omega)).symm
    case isFalse hl => exact (if_pos (by omega)).symm

theorem exists_float? (h : IsFloat cs) : ∃ f, FloatNumeral.float? cs = .ok f := by
  obtain ⟨whole, fraction, he, hw, hn, hf⟩ := sign_of_isFloat h
  have hp := mem_sign_of_isFloat h
  have hne : cs ≠ [] := fun hn => by simp [hn, FloatNumeral.sign] at he
  have hname (name : String) (hn : '.' ∉ name.toList := by decide) :=
    FloatNumeral.lower_ne_of_point hp hn
  have hd := FloatNumeral.decimal?_of_digits hw hn hf (FloatNumeral.sign cs).1
  rw [← he] at hd
  rw [FloatNumeral.float?, if_neg hne]
  simp only [hname "inf", hname "infinity", hname "nan", or_self, ↓reduceIte, hd]
  exact ⟨_, rfl⟩

-- Behind its first character, an integer has digits only.
theorem isDigit_of_isInteger (h : IsInteger (t ++ c :: u)) (ht : t ≠ []) : c.isDigit := by
  obtain ⟨sign, digits, he, hs, _, hd⟩ := h
  rcases hs with rfl | rfl | rfl
  case inl => exact hd c (by simp [← show t ++ c :: u = digits from he])
  all_goals
    obtain ⟨x, t, rfl⟩ := List.exists_cons_of_ne_nil ht
    have he : t ++ c :: u = digits := (List.cons.inj he).right
    exact hd c (by simp [← he])

-- Digits that are not followed by another one are all of an integer.
theorem length_le_of_isInteger (h : IsInteger u) (hu : u <+: t ++ cs) (ht : t ≠ [])
    (hc : ∀ c ∈ cs.head?, ¬c.isDigit) : u.length ≤ t.length := by
  rcases List.prefix_or_prefix_of_prefix hu (List.prefix_append t cs) with hp | ⟨v, rfl⟩
  case inl => exact hp.length_le
  case inr =>
    cases v
    case nil       => simp
    case cons c v =>
      have hv : c :: v <+: cs := (List.prefix_append_right_inj t).mp hu
      obtain ⟨_, rfl⟩ := hv
      exact absurd (isDigit_of_isInteger h ht) (hc c rfl)

theorem Fails.rejects (h : Fails cs cause text) : grammar.Rejects cs cause text := by
  cases h with
  | quote h => exact .refused rfl (firstMatch_lone h) rfl
  | overflow ht hs hn hd hc hf hr =>
    have hi : IsInteger text.toList := ⟨_, _, ht, hs, hn, hd⟩
    have hne : text.toList ≠ [] := by simp [ht, hn]
    obtain ⟨n, hm, hle⟩ := exists_firstMatch_integer (List.prefix_append ..) hi hf
    have hl := length_le_of_isInteger (language_of_firstMatch hm) (List.take_prefix ..) hne hc
    rw [List.length_take_of_le hm.length_le] at hl
    obtain rfl : n = text.length := String.length_toList ▸ Nat.le_antisymm hl hle
    refine .conversion rfl hm rfl ?_
    show Conversion.apply text .integer = _
    rw [Conversion.apply, ht, integer?_signed hs hn hd, if_neg hr]
    rfl

theorem fails_of_refused (hm : grammar.FirstMatch cs r text.length) (he : cs = text.toList ++ rest)
    (hr : r.refusal = some message) : Fails cs (.refused message) text := by
  have hk : ∀ r ∈ grammar.allRules, r.refusal ≠ none →
      r.kind = .unmatchedQuote ∧ r.refusal = some "Unmatched quote" := by decide +kernel
  have hmem := Grammar.mem_of_match? (Grammar.match?_eq_some_iff.mpr hm)
  obtain ⟨hk, hr'⟩ := hk r hmem (by simp [hr])
  cases hr.symm.trans hr'
  have hl := language_of_firstMatch hm
  rw [he, (Lexer.take_length_of_eq_append rfl).left] at hl
  simp only [language, hk] at hl
  obtain rfl : text = "\"" := String.toList_injective hl
  subst he
  refine .quote fun t ht hq => ?_
  obtain ⟨n, hm', _⟩ := exists_firstMatch_quote ht hq
  rw [(hm.unique hm').left] at hr
  cases hr

theorem fails_of_conversion (hm : grammar.FirstMatch cs r text.length)
    (he : cs = text.toList ++ rest) (hv : r.convert text = .error reason) :
    Fails cs (.conversion reason) text := by
  have hr := conversion_of_mem (Grammar.mem_of_match? (Grammar.match?_eq_some_iff.mpr hm))
  have hl := language_of_firstMatch hm
  rw [he, (Lexer.take_length_of_eq_append rfl).left] at hl
  by_cases hk : r.kind = .number
  case neg =>
    rw [Rule.convert, hr.left hk] at hv
    cases hv
  case pos =>
    rcases hr.right hk with hc | hc
    case inl =>
      simp only [language, hk, hc, ↓reduceIte] at hl
      obtain ⟨f, hf⟩ := exists_float? hl
      simp only [Rule.convert, hc, Conversion.apply, hf] at hv
      cases hv
    case inr =>
      simp only [language, hk, hc, Option.some.injEq, reduceCtorEq, ↓reduceIte] at hl
      obtain ⟨sign, digits, ht, hs, hn, hd⟩ := hl
      have hf : ∀ t, t <+: cs → ¬IsFloat t := by
        intro t ht hf
        obtain ⟨n, hm', _⟩ := exists_firstMatch_float ht hf
        rw [(hm.unique hm').left] at hc
        cases hc
      simp only [Rule.convert, hc, Conversion.apply, ht, integer?_signed hs hn hd] at hv
      split at hv <;> cases hv
      case isFalse hr =>
        subst he
        refine .overflow ht hs hn hd (fun c hc hd' => ?_) hf hr
        have hi : IsInteger (text.toList ++ [c]) :=
          ⟨sign, digits ++ [c], by simp [ht], hs, by simp,
            by simpa [or_imp, forall_and] using ⟨hd, hd'⟩⟩
        have hp : text.toList ++ [c] <+: text.toList ++ rest := by
          obtain ⟨rest, rfl⟩ := List.head?_eq_some_iff.mp hc
          simp
        obtain ⟨n, hm', hle⟩ := exists_firstMatch_integer hp hi hf
        rw [← (hm.unique hm').right, List.length_append, String.length_toList] at hle
        exact Nat.not_succ_le_self _ hle

-- The rules leave no text unmatched and every float has a value. So this is all that can go wrong.
theorem rejects_iff_fails : grammar.Rejects cs cause text ↔ Fails cs cause text := by
  refine ⟨fun h => ?_, Fails.rejects⟩
  cases h with
  | unexpected h          =>
    obtain ⟨m, hm⟩ := exists_match? (List.cons_ne_nil _ _)
    cases hm.symm.trans (Grammar.match?_eq_none_iff.mpr h)
  | refused he hm hr      => exact fails_of_refused hm he hr
  | conversion he hm _ hv => exact fails_of_conversion hm he hv

theorem Fails.quote_or_digits (h : Fails cs cause text) :
    '"' ∈ cs ∨ ∃ ds, ds <:+: cs ∧ (∀ c ∈ ds, c.isDigit) ∧ 19 ≤ ds.length := by
  cases h with
  | quote _ => exact .inl List.mem_cons_self
  | @overflow sign digits rest _ ht _ _ hd _ _ hr =>
    refine .inr ⟨digits, ⟨sign, rest, by rw [ht]⟩, hd, Nat.le_of_not_lt fun hl => hr ?_⟩
    have hv := Digits.toNat_lt_pow_length hd
    have hp : 10 ^ digits.length ≤ 10 ^ 18 := Nat.pow_le_pow_right (by decide) (by omega)
    rw [denoted]
    split <;> omega

theorem lex_take_offset {text : String} (h : grammar.lex text = .error e) :
    ∃ lexed, grammar.lex (String.ofList (text.toList.take e.offset)) = .ok lexed := by
  obtain ⟨ts, rest, ht, _, ho⟩ := Grammar.exists_rejects_of_lex h
  obtain ⟨before, hb, hl⟩ := ht.splits
  have hf : grammar.Tiles (before ++ []) ts [] := tiles_of_isPrefix (hb ▸ ht) List.nil_prefix
  rw [hb, ho, ← hl, List.take_left]
  rw [List.append_nil, ← String.toList_ofList (l := before)] at hf
  exact ⟨_, Grammar.lex_of_tiles hf⟩

-- A text is cut into tokens up to a quote without a partner or an integer that is out of range.
theorem lex_error_iff_fails :
    (∀ text e, grammar.lex text = .error e ↔ ∃ ts rest, grammar.Tiles text.toList ts rest ∧
      Fails rest e.cause e.text ∧ e.offset = Tile.width ts) ∧
    (∀ text e, grammar.lex text = .error e →
      e.cause ≠ .unexpected ∧ (∀ s reason, e.cause ≠ .conversion (.float s reason)) ∧
      ∃ lexed, grammar.lex (String.ofList (text.toList.take e.offset)) = .ok lexed) ∧
    ∀ text : String, '"' ∉ text.toList →
      (∀ ds, ds <:+: text.toList → (∀ c ∈ ds, c.isDigit) → ds.length < 19) →
      ∃ lexed, grammar.lex text = .ok lexed := by
  have hiff (text e) : grammar.lex text = .error e ↔ ∃ ts rest, grammar.Tiles text.toList ts rest ∧
      Fails rest e.cause e.text ∧ e.offset = Tile.width ts := by
    simp only [← rejects_iff_fails]
    refine ⟨Grammar.exists_rejects_of_lex, ?_⟩
    rintro ⟨ts, rest, ht, hr, ho⟩
    rw [Grammar.lex_of_rejects ht hr, ← ho]
  refine ⟨hiff, fun text e h => ?_, fun text hq hd => ?_⟩
  case refine_1 =>
    obtain ⟨_, _, _, hf, _⟩ := (hiff text e).mp h
    refine ⟨?_, ?_, lex_take_offset h⟩
    · intro hc
      cases hc ▸ hf
    · intro s reason hc
      cases hc ▸ hf
  case refine_2 =>
    cases h : grammar.lex text
    case ok lexed => exact ⟨lexed, rfl⟩
    case error e  =>
      obtain ⟨ts, rest, ht, hf, _⟩ := (hiff text e).mp h
      obtain ⟨before, hb, _⟩ := ht.splits
      rcases hf.quote_or_digits with hm | ⟨ds, hi, hds, hl⟩
      case inl => exact absurd (hb ▸ List.mem_append_right before hm) hq
      case inr =>
        have := hd ds (hb ▸ hi.trans (List.suffix_append before rest).isInfix) hds
        omega

-- The quote is at fault in the first text. There is none in the second one, and no long number.
theorem lex_error_iff_fails_quote :
    (∃ e, grammar.lex "a \"b" = .error e ∧ e.message = "Unmatched quote" ∧ ∃ ts rest,
      grammar.Tiles "a \"b".toList ts rest ∧ Fails rest e.cause e.text ∧ 2 = Tile.width ts) ∧
    ∃ lexed, grammar.lex "a=-1.5" = .ok lexed := by
  have he : grammar.lex "a \"b" = .error
      { cause := .refused "Unmatched quote", text := "\"", offset := 2 } := by cbv
  refine ⟨⟨_, he, rfl, (lex_error_iff_fails.left _ _).mp he⟩, ?_⟩
  refine lex_error_iff_fails.right.right _ (by decide) fun ds hd _ => ?_
  exact Nat.lt_of_le_of_lt hd.length_le (by decide)

end ArgTree.Expression
