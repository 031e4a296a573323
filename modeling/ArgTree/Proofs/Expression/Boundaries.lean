import ArgTree.Proofs.Expression.Lexes

namespace ArgTree.Expression

theorem isPlain_of_isWordCharacter (h : Text.isWordCharacter c) : isPlain c := by
  have hw : Text.wordCharacterTable.all fun r => Text.whiteSpaceTable.all fun s =>
      r.last < s.first || s.last < r.first := by decide +kernel
  have hs : Text.wordCharacterTable.all fun r => special.all fun x =>
      r.last < x.toNat || x.toNat < r.first := by decide +kernel
  simp only [List.all_eq_true, Bool.or_eq_true, decide_eq_true_eq] at hw hs
  obtain ⟨r, hr, hle, hge⟩ := Text.inTable_iff.mp h
  simp only [isPlain, Bool.and_eq_true, Bool.not_eq_true', Bool.eq_false_iff, ne_eq,
    List.contains_iff_mem]
  constructor
  case left =>
    intro hc
    obtain ⟨s, hs, hle', hge'⟩ := Text.inTable_iff.mp hc
    have := hw r hr s hs
    omega
  case right =>
    intro hc
    have := hs r hr c hc
    omega

theorem isPlain_of_isDigit (h : c.isDigit) : isPlain c := by
  refine isPlain_of_isWordCharacter <| Text.inTable_iff.mpr ⟨⟨0x30, 0x39⟩, by decide, ?_⟩
  simp only [Char.isDigit, Bool.and_eq_true, decide_eq_true_eq, ge_iff_le,
    UInt32.le_iff_toNat_le] at h
  exact h

-- The kinds of tokens that go on as long as there are plain characters that fit in.
def isRun (k : Kind) : Bool :=
  k = .word || k = .number || k = .var

theorem isPlain_of_isSign (h : IsSign sign) : ∀ c ∈ sign, isPlain c := by
  rcases h with rfl | rfl | rfl
  case inl => exact nofun
  all_goals exact List.forall_mem_singleton.mpr (by decide)

theorem isPlain_of_isRun (hk : isRun r.kind) (h : language r t) : ∀ c ∈ t, isPlain c := by
  cases hk' : r.kind <;> simp [isRun, hk'] at hk
  case var =>
    simp only [language, hk'] at h
    obtain ⟨w, rfl, _, hw⟩ := h
    rw [List.forall_mem_cons]
    exact ⟨by decide, fun c hc => isPlain_of_isWordCharacter (hw c hc)⟩
  case word =>
    simp only [language, hk'] at h
    exact h.right
  case number =>
    by_cases hc : r.conversion = some .float <;> simp only [language, hk', hc, ↓reduceIte] at h
    case pos =>
      obtain ⟨sign, whole, fraction, rfl, hs, hw, _, hf⟩ := h
      simp only [List.forall_mem_append, List.forall_mem_cons]
      exact ⟨isPlain_of_isSign hs, fun c hc => isPlain_of_isDigit (hw c hc), by decide,
        fun c hc => isPlain_of_isDigit (hf c hc)⟩
    case neg =>
      obtain ⟨sign, digits, rfl, hs, _, hd⟩ := h
      rw [List.forall_mem_append]
      exact ⟨isPlain_of_isSign hs, fun c hc => isPlain_of_isDigit (hd c hc)⟩

-- A token of several characters is a quoted text or all of one sort.
theorem language_cases (h : language r t) :
    (∃ c, t = [c] ∧ (c = '"' → r.kind = .unmatchedQuote)) ∨ (∀ c ∈ t, isPlain c) ∨
      (∀ c ∈ t, Text.isWhiteSpace c) ∨ IsQuote t := by
  cases hk : r.kind
  case var | number | word => exact .inr <| .inl <| isPlain_of_isRun (by rw [hk]; rfl) h
  case whitespace =>
    simp only [language, hk] at h
    exact .inr <| .inr <| .inl h.right
  case quote =>
    simp only [language, hk] at h
    exact .inr <| .inr <| .inr h
  all_goals simp only [language, hk] at h
  all_goals exact .inl ⟨_, h, by decide⟩

-- What a token begins and ends with.
def IsEdge (c : Char) (t : List Char) : Prop :=
  c ∈ t.head? ∨ c ∈ t.getLast?

theorem IsEdge.mem (h : IsEdge c t) : c ∈ t :=
  h.elim List.mem_of_mem_head? List.mem_of_mem_getLast?

theorem not_plain_of_special (hc : c ∈ special) :
    isPlain c = false ∧ Text.isWhiteSpace c = false := by
  have : special.all fun c => !isPlain c && !Text.isWhiteSpace c := by decide
  simpa using List.all_eq_true.mp this c hc

theorem eq_of_edge_of_isQuote (h : IsQuote t) (hc : IsEdge c t) : c = '"' := by
  obtain ⟨body, rfl, _⟩ := h
  have hl : ('"' :: (body ++ ['"'])).getLast? = some '"' := List.getLast?_concat (l := '"' :: body)
  exact Eq.symm (by simpa [IsEdge, hl] using hc)

-- A token with a special character at its edge is that character, or a quoted text.
theorem eq_singleton_of_edge (h : language r t) (hc : IsEdge c t) (hs : c ∈ special)
    (hq : c ≠ '"') : t = [c] := by
  have ⟨hp, hw⟩ := not_plain_of_special hs
  rcases language_cases h with ⟨d, rfl, _⟩ | ht | ht | ht
  case inl          => rw [List.mem_singleton.mp hc.mem]
  case inr.inl      => exact absurd (ht c hc.mem) (by simp [hp])
  case inr.inr.inl  => exact absurd (ht c hc.mem) (by simp [hw])
  case inr.inr.inr  => exact absurd (eq_of_edge_of_isQuote ht hc) hq

-- Only runs have plain characters at their edges, and only white space has white space there.
theorem language_edge (h : language r t) (hc : IsEdge c t) :
    (isPlain c → isRun r.kind) ∧ (Text.isWhiteSpace c → r.kind = .whitespace) := by
  have hs (hc : c ∈ special) := not_plain_of_special hc
  cases hk : r.kind
  case var | number | word =>
    have hp := isPlain_of_isRun (by rw [hk]; rfl) h c hc.mem
    simp_all [isPlain, isRun]
  case whitespace =>
    simp only [language, hk] at h
    have hw := h.right c hc.mem
    simp [isPlain, hw]
  case quote =>
    simp only [language, hk] at h
    simp [hs (eq_of_edge_of_isQuote h hc ▸ by decide)]
  all_goals simp only [language, hk] at h
  all_goals simp [hs (List.mem_singleton.mp (h ▸ hc.mem) ▸ by decide)]

theorem eq_of_isQuote_of_isPrefix (ht : IsQuote t) (hu : IsQuote u) (h : t <+: u) : t = u := by
  obtain ⟨b, rfl, hb⟩ := ht
  obtain ⟨d, rfl, hd⟩ := hu
  have ⟨us, he⟩ := (List.cons_prefix_cons.mp h).right
  have hq : quoteEnd (b ++ '"' :: us) = _ := quoteEnd_append hb
  rw [List.append_assoc, List.singleton_append] at he
  rw [he, quoteEnd_append hd] at hq
  have hl : (b ++ ['"']).length = (d ++ ['"']).length := by simpa using hq.symm
  exact h.eq_of_length (by simpa using hl)

theorem refused_of_kind (h : r ∈ grammar.allRules) (hk : r.kind = .unmatchedQuote) :
    r.refusal ≠ none := by
  have : ∀ r ∈ grammar.allRules, r.kind = .unmatchedQuote → r.refusal ≠ none := by decide +kernel
  exact this r h hk

-- A token that begins with a quote is a whole quoted text, since a lone quote is refused.
theorem isQuote_of_head (hm : r ∈ grammar.allRules) (hr : r.refusal = none)
    (h : language r ('"' :: t)) : IsQuote ('"' :: t) := by
  rcases language_cases h with ⟨c, hc, hk⟩ | hp | hw | hq
  case inl          => exact absurd hr <| refused_of_kind hm <| hk (List.cons.inj hc).left.symm
  case inr.inl      => exact absurd (hp '"' (by simp)) (by decide)
  case inr.inr.inl  => exact absurd (hw '"' (by simp)) (by decide)
  case inr.inr.inr  => exact hq

-- Nothing that ends the first text and begins the second one could belong to the same token.
def Apart (as bs : List Char) : Prop :=
  ∀ x ∈ as.getLast?, ∀ y ∈ bs.head?,
    ¬(isPlain x ∧ isPlain y) ∧ ¬(Text.isWhiteSpace x ∧ Text.isWhiteSpace y)

theorem Apart.of_append (h : Apart (as ++ cs) bs) : Apart cs bs := by
  cases cs
  case nil  => simp [Apart]
  case cons => simpa [Apart, List.getLast?_append] using h

theorem takes_iff : Takes t cs ↔ ∃ r ∈ grammar.allRules, r.refusal = none ∧ r.kind = t.kind ∧
    r.convert t.text = .ok t.value ∧
    grammar.match? (t.text.toList ++ cs) = some (r, t.text.toList.length) := by
  constructor
  case mp  => exact fun ⟨r, hm, hr, hk, hv⟩ => ⟨r, Grammar.mem_of_match? hm, hr, hk, hv, hm⟩
  case mpr => exact fun ⟨r, _, hr, hk, hv, hm⟩ => ⟨r, hm, hr, hk, hv⟩

-- The text of a token is one of those that its rule matches as a whole.
theorem language_of_match? (h : grammar.match? (as ++ cs) = some (r, as.length)) :
    language r as := by
  have hm := Grammar.matchLength?_of_match? h
  simpa using ((longest_of_mem (Grammar.mem_of_match? h)).sound hm).right

theorem prefix_of_apart (ht : Takes t ds) (ha : Apart (t.text.toList ++ ds) cs) (he : language e u)
    (hu : u <+: t.text.toList ++ ds ++ cs) : u <+: t.text.toList ++ ds := by
  rcases List.prefix_or_prefix_of_prefix hu (List.prefix_append _ cs) with hp | ⟨z, hz⟩
  case inl => exact hp
  case inr =>
    cases z
    case nil => simp [← hz]
    case cons y z =>
      exfalso
      have hn : t.text.toList ++ ds ≠ [] := by simp [ne_nil_of_takes ht]
      have ⟨z', hz'⟩ := hu
      have hy : cs.head? = some y := by
        rw [← hz, List.append_assoc, List.append_cancel_left_eq] at hz'
        simp [← hz']
      have hx := List.getLast?_eq_some_getLast hn
      have ⟨hp, hw⟩ := ha _ hx y hy
      have hxu : (t.text.toList ++ ds).getLast hn ∈ u :=
        hz ▸ List.mem_append_left _ (List.getLast_mem hn)
      have hyu : y ∈ u := by simp [← hz]
      rcases language_cases he with ⟨c, hc, _⟩ | hu' | hu' | hq
      case inl =>
        have := congrArg List.length (hz.trans hc)
        have := List.length_pos_iff.mpr hn
        simp at *
        omega
      case inr.inl     => exact hp ⟨hu' _ hxu, hu' y hyu⟩
      case inr.inr.inl => exact hw ⟨hu' _ hxu, hu' y hyu⟩
      case inr.inr.inr =>
        have ⟨r, hm, hr, _, _, hm'⟩ := takes_iff.mp ht
        have hL := language_of_match? hm'
        have ⟨c, w, hcw⟩ := List.exists_cons_of_ne_nil (ne_nil_of_takes ht)
        have hc : c = '"' := by
          obtain ⟨b, rfl, _⟩ := hq
          rw [hcw] at hz
          exact (List.cons.inj hz).left
        rw [hcw, hc] at hL
        have hq' := isQuote_of_head hm hr hL
        have := congrArg List.length <| eq_of_isQuote_of_isPrefix hq' hq
          ⟨ds ++ y :: z, by rw [← hz, hcw, hc, List.append_assoc]⟩
        simp [← hz, hcw] at this

theorem match?_congr (h : ∀ r ∈ grammar.allRules, ∀ u, language r u → (u <+: cs ↔ u <+: ds)) :
    grammar.match? cs = grammar.match? ds := by
  have he : ∀ r ∈ grammar.allRules, r.pattern.matchLength? cs = r.pattern.matchLength? ds :=
    fun r hr => (longest_of_mem hr).eq_of_prefixes (h r hr)
  simp only [Grammar.match?]
  generalize grammar.allRules = rs at he
  induction rs
  case nil => rfl
  case cons r rs hi =>
    rw [List.findSome?_cons, List.findSome?_cons, he r List.mem_cons_self,
      hi fun r hr => he r (List.mem_cons_of_mem _ hr)]

theorem match?_of_isPrefix (hp : ds <+: cs) (hn : n ≤ ds.length)
    (h : grammar.match? cs = some (r, n)) : grammar.match? ds = some (r, n) := by
  simp only [Grammar.match?] at h ⊢
  have hl := @longest_of_mem
  generalize grammar.allRules = rs at h hl
  induction rs
  case nil => contradiction
  case cons e rs hi =>
    have he := hl (List.mem_cons_self (a := e))
    cases hm : e.pattern.matchLength? cs
    case none =>
      simp only [List.findSome?_cons, hm, Option.map_none] at h
      simp only [List.findSome?_cons, he.eq_none_of_isPrefix hp hm, Option.map_none]
      exact hi h fun h => hl (List.mem_cons_of_mem _ h)
    case some m =>
      simp only [List.findSome?_cons, hm, Option.map_some, Option.some.injEq, Prod.mk.injEq] at h
      obtain ⟨rfl, rfl⟩ := h
      simp [he.eq_some_of_isPrefix hp hn hm]

-- A token does not change if the text is cut off somewhere behind it.
theorem Takes.of_isPrefix (h : Takes t cs) (hp : ds <+: cs) : Takes t ds := by
  obtain ⟨r, hm, hr⟩ := h
  refine ⟨r, match?_of_isPrefix ?_ (by simp) hm, hr⟩
  exact (List.prefix_append_right_inj _).mpr hp

-- It does not change either if more text follows that stands apart.
theorem match?_append_of_apart (h : Takes t ds) (ha : Apart (t.text.toList ++ ds) cs) :
    grammar.match? (t.text.toList ++ ds ++ cs) = grammar.match? (t.text.toList ++ ds) :=
  match?_congr fun _ _ _ hu =>
    ⟨prefix_of_apart h ha hu, fun hp => hp.trans (List.prefix_append _ cs)⟩

theorem Takes.append (h : Takes t ds) (ha : Apart (t.text.toList ++ ds) cs) :
    Takes t (ds ++ cs) := by
  have hm := match?_append_of_apart h ha
  obtain ⟨r, h, hr⟩ := h
  exact ⟨r, by rw [← List.append_assoc, hm, h], hr⟩

namespace Lexes

theorem append (h : Lexes as ts) (h' : Lexes bs us) (ha : Apart as bs) :
    Lexes (as ++ bs) (ts ++ us) := by
  induction h
  case nil => exact h'
  case cons t cs ts ht hts hi =>
    rw [List.append_assoc, List.cons_append]
    exact cons (ht.append ha) (hi ha.of_append)

theorem of_append_left (h : Lexes cs (ts ++ us)) : Lexes (Lexeme.textOf ts).toList ts := by
  induction ts generalizing cs
  case nil => exact nil
  case cons t ts hi =>
    rw [List.cons_append] at h
    cases h
    case cons cs ht hts =>
      rw [toList_textOf_cons]
      refine cons (ht.of_isPrefix ?_) (hi hts)
      rw [hts.eq_toList_textOf, toList_textOf_append]
      exact List.prefix_append ..

theorem of_append_right (h : Lexes cs (ts ++ us)) : Lexes (Lexeme.textOf us).toList us := by
  induction ts generalizing cs
  case nil => exact h.eq_toList_textOf ▸ h
  case cons t ts hi =>
    rw [List.cons_append] at h
    cases h
    case cons hts => exact hi hts

-- Every row of tokens of a text is cut from its own text again.
theorem of_isInfix (h : Lexes cs ts) (hi : us <:+: ts) : Lexes (Lexeme.textOf us).toList us := by
  have ⟨xs, ys, he⟩ := hi
  rw [← he, List.append_assoc] at h
  exact h.of_append_right.of_append_left

end Lexes

end ArgTree.Expression
