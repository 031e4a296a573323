import ArgTree.Proofs.Expression.Boundaries

namespace ArgTree

theorem Binary64.ofRank_ne_nan {sign : Bool} : ofRank sign rank ≠ .nan := by
  simp only [ofRank]
  split <;> exact nofun

theorem FloatNumeral.ne_nan_of_decimal? (h : decimal? negative cs = some f) : f ≠ .nan := by
  simp only [decimal?] at h
  split at h
  all_goals
    split at h <;> try contradiction
    have ⟨_, _, h⟩ := Option.map_eq_some_iff.mp h
    exact h ▸ Binary64.ofRank_ne_nan

-- A numeral with a point is no name.
theorem FloatNumeral.ne_nan_of_float? (h : float? cs = .ok f) (hp : '.' ∈ (sign cs).2) :
    f ≠ .nan := by
  simp only [float?] at h
  split at h <;> try contradiction
  split at h
  case isTrue =>
    cases h
    exact nofun
  case isFalse =>
    split at h
    case isTrue hn =>
      exfalso
      have hm : '.' ∈ ((sign cs).2.map Char.toLower) := List.mem_map.mpr ⟨'.', hp, by decide⟩
      rw [← String.toList_ofList (l := (sign cs).2.map Char.toLower), hn] at hm
      simp at hm
    case isFalse =>
      split at h <;> cases h
      case h_1 hd => exact ne_nan_of_decimal? hd

namespace Expression

theorem sign_of_isFloat (h : IsFloat cs) : ∃ whole fraction,
    (FloatNumeral.sign cs).2 = whole ++ '.' :: fraction ∧
    (∀ c ∈ whole, c.isDigit) ∧ fraction ≠ [] ∧ ∀ c ∈ fraction, c.isDigit := by
  obtain ⟨sign, whole, fraction, rfl, hs, hd⟩ := h
  refine ⟨whole, fraction, ?_, hd⟩
  rcases hs with rfl | rfl | rfl
  case inl =>
    rw [List.nil_append]
    simp only [FloatNumeral.sign]
    split
    case h_1 he => cases whole <;> simp_all
    case h_2 he => cases whole <;> simp_all
    case h_3    => rfl
  all_goals rfl

theorem mem_sign_of_isFloat (h : IsFloat cs) : '.' ∈ (FloatNumeral.sign cs).2 := by
  obtain ⟨_, _, he, _⟩ := sign_of_isFloat h
  simp [he]

variable {t : Lexeme}

theorem Takes.exists_rule (h : Takes t cs) : ∃ r ∈ grammar.allRules, r.refusal = none ∧
    r.kind = t.kind ∧ r.convert t.text = .ok t.value ∧ language r t.text.toList := by
  have ⟨r, hr, hn, hk, hv, hm⟩ := takes_iff.mp h
  exact ⟨r, hr, hn, hk, hv, language_of_match? hm⟩

theorem Takes.language_text (h : Takes t cs) (hk : t.kind = k) :
    ∃ r : Rule, r.kind = k ∧ language r t.text.toList := by
  have ⟨r, _, _, hk', _, hl⟩ := h.exists_rule
  exact ⟨r, hk'.trans hk, hl⟩

-- White space is taken as a whole.
theorem Takes.not_whitespace {u : Lexeme} (h : Takes t (u.text.toList ++ cs)) (h' : Takes u cs)
    (ht : t.kind = .whitespace) : u.kind ≠ .whitespace := by
  intro hu
  obtain ⟨r, hr, _, hk, _, hm⟩ := takes_iff.mp h
  obtain ⟨e, he, hl'⟩ := h'.language_text hu
  have hl := language_of_match? hm
  simp only [language, hk, ht] at hl
  simp only [language, he] at hl'
  have hL : language r (t.text.toList ++ u.text.toList) := by
    simp only [language, hk, ht, IsWhiteSpace, List.mem_append]
    have hn := List.append_ne_nil_of_left_ne_nil hl.left u.text.toList
    exact ⟨hn, fun c hc => hc.elim (hl.right c) (hl'.right c)⟩
  have hp : t.text.toList ++ u.text.toList <+: t.text.toList ++ (u.text.toList ++ cs) := by simp
  obtain ⟨n, hn, hle⟩ := (longest_of_mem hr).longest hp hL
  have hlen := List.length_pos_iff.mpr hl'.left
  cases hn.symm.trans (Grammar.matchLength?_of_match? hm)
  simp only [List.length_append] at hle
  omega

theorem conversion_of_mem (h : r ∈ grammar.allRules) :
    (r.kind ≠ .number → r.conversion = none) ∧
      (r.kind = .number → r.conversion = some .float ∨ r.conversion = some .integer) := by
  have : ∀ r ∈ grammar.allRules, (r.kind ≠ .number → r.conversion = none) ∧
      (r.kind = .number → r.conversion = some .float ∨ r.conversion = some .integer) := by
    decide +kernel
  exact this r h

theorem Takes.kind_ne_endOfText (h : Takes t cs) : t.kind ≠ .endOfText := by
  have ⟨r, hr, _, hk, _⟩ := h.exists_rule
  exact hk ▸ grammar.proper r hr

theorem Takes.value_eq_text (h : Takes t cs) (hk : t.kind ≠ .number) : t.value = .str t.text := by
  have ⟨r, hr, _, hk', hv, _⟩ := h.exists_rule
  rw [Rule.convert, (conversion_of_mem hr).left (hk' ▸ hk)] at hv
  exact (Except.ok.inj hv).symm

theorem Takes.value_of_number (h : Takes t cs) (hk : t.kind = .number) :
    (∃ n, t.value = .int n) ∨ ∃ f, t.value = .float f ∧ f ≠ .nan := by
  have ⟨r, hr, _, hk', hv, hl⟩ := h.exists_rule
  rw [hk] at hk'
  rcases (conversion_of_mem hr).right hk' with hc | hc
  case inl =>
    simp only [language, hk', hc, ↓reduceIte] at hl
    simp only [Rule.convert, hc, Conversion.apply] at hv
    cases hf : FloatNumeral.float? t.text.toList <;> rw [hf] at hv
    case error => contradiction
    case ok f  =>
      have hn := FloatNumeral.ne_nan_of_float? hf (mem_sign_of_isFloat hl)
      exact .inr ⟨f, (Except.ok.inj hv).symm, hn⟩
  case inr =>
    simp only [Rule.convert, hc, Conversion.apply] at hv
    cases hi : Numeral.integer? t.text.toList <;> rw [hi] at hv
    case error => contradiction
    case ok n  => exact .inl ⟨n, (Except.ok.inj hv).symm⟩

-- Every lexeme of a text is cut off in front of some rest of it.
theorem Lexes.takes_of_mem (h : Lexes cs ts) (ht : t ∈ ts) : ∃ ds, Takes t ds := by
  induction h
  case nil => contradiction
  case cons hts _ hi =>
    cases ht
    case head      => exact ⟨_, hts⟩
    case tail _ ht => exact hi ht

end Expression

end ArgTree
