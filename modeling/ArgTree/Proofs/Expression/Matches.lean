import ArgTree.Proofs.Expression.Boundaries
import ArgTree.Proofs.Lexing.Tiles

namespace ArgTree

theorem Grammar.FirstMatch.unique {g : Grammar} (h : g.FirstMatch cs r n)
    (h' : g.FirstMatch cs q m) : r = q ∧ n = m :=
  Prod.mk.inj (Option.some.inj ((match?_eq_some_iff.mpr h).symm.trans (match?_eq_some_iff.mpr h')))

namespace Expression

theorem allRules_eq (i : Nat) (hi : i < rules.length) :
    grammar.allRules = rules.take i ++ rules[i] :: (rules.drop (i + 1) ++ [word]) := by
  rw [← List.cons_append, ← List.drop_eq_getElem_cons hi, ← List.append_assoc,
    List.take_append_drop]
  rfl

-- A rule is the first one that matches if it matches some front of a text, and no rule before it
-- does.
theorem exists_firstMatch (he : grammar.allRules = before ++ r :: later)
    (hb : ∀ q ∈ before, ∀ u, language q u → ¬u <+: cs) (ht : t <+: cs) (hl : language r t) :
    ∃ n, grammar.FirstMatch cs r n ∧ t.length ≤ n := by
  have hm : ∀ q ∈ before ++ [r], q ∈ grammar.allRules := by
    intro q hq
    rw [he, List.append_cons]
    exact List.mem_append_left _ hq
  have ⟨n, hn, hle⟩ := (longest_of_mem (hm r (by simp))).longest ht hl
  refine ⟨n, ⟨before, later, he, fun q hq => ?_, hn⟩, hle⟩
  exact (longest_of_mem (hm q (by simp [hq]))).eq_none_iff.mpr fun u hu hL => hb q hq u hL hu

theorem language_of_firstMatch (h : grammar.FirstMatch cs r n) : language r (cs.take n) := by
  have hm := Grammar.match?_eq_some_iff.mpr h
  have hl := longest_of_mem (Grammar.mem_of_match? hm)
  exact (hl.sound (Grammar.matchLength?_of_match? hm)).right

-- It takes a front that no other one in its language is longer than.
theorem firstMatch_of_maximal (he : grammar.allRules = before ++ r :: later)
    (hb : ∀ q ∈ before, ∀ u, language q u → ¬u <+: cs) (ht : t <+: cs) (hl : language r t)
    (hm : ∀ u, u <+: cs → language r u → u.length ≤ t.length) :
    grammar.FirstMatch cs r t.length := by
  have ⟨n, hf, hle⟩ := exists_firstMatch he hb ht hl
  have hn := hm _ (List.take_prefix n cs) (language_of_firstMatch hf)
  rw [List.length_take_of_le hf.length_le] at hn
  exact Nat.le_antisymm hn hle ▸ hf

-- Only numbers and words begin with a character that is plain and begins no variable.
theorem kind_of_plain (h : language r (c :: u)) (hc : isPlain c) (hv : c ≠ '$') :
    r.kind = .number ∨ r.kind = .word := by
  have hs : c ∉ special := by simp_all [isPlain]
  have hw : Text.isWhiteSpace c = false := by simp_all [isPlain]
  cases hk : r.kind <;> simp only [language, hk] at h
  case number => exact .inl rfl
  case word   => exact .inr rfl
  case var =>
    obtain ⟨_, he, _⟩ := h
    exact absurd (List.cons.inj he).left hv
  case quote =>
    obtain ⟨_, he, _⟩ := h
    exact absurd ((List.cons.inj he).left ▸ by decide) hs
  case whitespace => exact absurd (h.right c List.mem_cons_self) (by simp [hw])
  all_goals exact absurd ((List.cons.inj h).left ▸ by decide) hs

-- What a number consists of begins neither a variable nor anything that is no number and no word.
def IsNumberCharacter (c : Char) : Prop :=
  isPlain c ∧ c ≠ '$'

theorem isNumberCharacter_of_isDigit (h : c.isDigit) : IsNumberCharacter c := by
  refine ⟨isPlain_of_isDigit h, ?_⟩
  rintro rfl
  exact Bool.false_ne_true h

theorem isNumberCharacter_of_isSign (h : IsSign sign) : ∀ c ∈ sign, IsNumberCharacter c := by
  rcases h with rfl | rfl | rfl
  case inl => exact nofun
  all_goals exact List.forall_mem_singleton.mpr ⟨by decide, by decide⟩

theorem isNumberCharacter_of_isFloat (h : IsFloat t) : ∀ c ∈ t, IsNumberCharacter c := by
  obtain ⟨sign, whole, fraction, rfl, hs, hw, _, hf⟩ := h
  simp only [List.forall_mem_append, List.forall_mem_cons]
  exact ⟨isNumberCharacter_of_isSign hs, fun c hc => isNumberCharacter_of_isDigit (hw c hc),
    ⟨by decide, by decide⟩, fun c hc => isNumberCharacter_of_isDigit (hf c hc)⟩

theorem isNumberCharacter_of_isInteger (h : IsInteger t) : ∀ c ∈ t, IsNumberCharacter c := by
  obtain ⟨sign, digits, rfl, hs, _, hd⟩ := h
  rw [List.forall_mem_append]
  exact ⟨isNumberCharacter_of_isSign hs, fun c hc => isNumberCharacter_of_isDigit (hd c hc)⟩

theorem not_point_of_isInteger (h : IsInteger t) : '.' ∉ t := by
  obtain ⟨sign, digits, rfl, hs, _, hd⟩ := h
  rw [List.mem_append, not_or]
  refine ⟨?_, fun h => Bool.false_ne_true (hd '.' h)⟩
  rcases hs with rfl | rfl | rfl <;> decide

theorem kind_of_isPrefix (ht : t <+: cs) (hn : t ≠ []) (hp : ∀ c ∈ t, IsNumberCharacter c)
    (h : language r u) (hu : u <+: cs) : r.kind = .number ∨ r.kind = .word := by
  obtain ⟨c, t, rfl⟩ := List.exists_cons_of_ne_nil hn
  obtain ⟨us, rfl⟩ := ht
  cases u
  case nil => exact absurd h not_language_nil
  case cons d u =>
    obtain rfl := (List.cons_prefix_cons.mp hu).left
    have ⟨hc, hv⟩ := hp d List.mem_cons_self
    exact kind_of_plain h hc hv

-- If a text begins with a float, the rule for floats matches first.
theorem exists_firstMatch_float (ht : t <+: cs) (h : IsFloat t) :
    ∃ n, grammar.FirstMatch cs rules[11] n ∧ t.length ≤ n := by
  have hk : ∀ q ∈ rules.take 11, q.kind ≠ .number ∧ q.kind ≠ .word := by decide +kernel
  have hl : language rules[11] t := h
  refine exists_firstMatch (allRules_eq 11 (by decide)) (fun q hq u hL hu => ?_) ht hl
  have hn : t ≠ [] := fun hn => not_language_nil (hn ▸ hl)
  exact (kind_of_isPrefix ht hn (isNumberCharacter_of_isFloat h) hL hu).elim (hk q hq).left
    (hk q hq).right

-- If it begins with an integer and no float, the rule for integers does.
theorem exists_firstMatch_integer (ht : t <+: cs) (h : IsInteger t)
    (hf : ∀ u, u <+: cs → ¬IsFloat u) : ∃ n, grammar.FirstMatch cs rules[12] n ∧ t.length ≤ n := by
  have hk : ∀ q ∈ rules.take 12,
      (q.kind = .number → q.conversion = some .float) ∧ q.kind ≠ .word := by
    decide +kernel
  have hl : language rules[12] t := h
  refine exists_firstMatch (allRules_eq 12 (by decide)) (fun q hq u hL hu => ?_) ht hl
  have hn : t ≠ [] := fun hn => not_language_nil (hn ▸ hl)
  have ⟨hn', hw⟩ := hk q hq
  have hq := (kind_of_isPrefix ht hn (isNumberCharacter_of_isInteger h) hL hu).resolve_right hw
  simp only [language, hq, hn' hq, ↓reduceIte] at hL
  exact hf u hu hL

-- If it begins with a quoted text, the rule for these does.
theorem exists_firstMatch_quote (ht : t <+: cs) (h : IsQuote t) :
    ∃ n, grammar.FirstMatch cs rules[2] n ∧ t.length ≤ n := by
  have hk : ∀ q ∈ rules.take 2, q.kind = .escape ∨ q.kind = .var := by decide +kernel
  refine exists_firstMatch (allRules_eq 2 (by decide)) (fun q hq u hL hu => ?_) ht h
  obtain ⟨body, rfl, _⟩ := h
  obtain ⟨us, rfl⟩ := ht
  rcases hk q hq with hq | hq <;> simp only [language, hq] at hL
  case inl =>
    subst hL
    exact absurd (List.cons_prefix_cons.mp hu).left (by decide)
  case inr =>
    obtain ⟨_, rfl, _⟩ := hL
    exact absurd (List.cons_prefix_cons.mp hu).left (by decide)

-- If it begins with a quote that ends nowhere, the rule for lone quotes does.
theorem firstMatch_lone (h : ∀ t, t <+: '"' :: cs → ¬IsQuote t) :
    grammar.FirstMatch ('"' :: cs) rules[14] 1 := by
  have hk : ∀ q ∈ rules.take 14, q.refusal = none := by decide +kernel
  refine firstMatch_of_maximal (t := ['"']) (allRules_eq 14 (by decide))
    (fun q hq u hL hu => ?_) (by simp) rfl ?_
  case refine_1 =>
    cases u
    case nil => exact not_language_nil hL
    case cons c u =>
      obtain rfl := (List.cons_prefix_cons.mp hu).left
      have hm : q ∈ grammar.allRules := List.mem_append_left _ (List.mem_of_mem_take hq)
      exact h _ hu (isQuote_of_head hm (hk q hq) hL)
  case refine_2 =>
    intro u _ hL
    exact Nat.le_of_eq (congrArg List.length (show u = ['"'] from hL))

-- Some rule matches every character.
theorem exists_language (c : Char) : ∃ r ∈ grammar.allRules, language r [c] := by
  have hm (i : Nat) (hi : i < rules.length := by decide) : rules[i] ∈ grammar.allRules :=
    List.mem_append_left _ (List.getElem_mem hi)
  by_cases hw : Text.isWhiteSpace c
  case pos => exact ⟨_, hm 10, nofun, List.forall_mem_singleton.mpr hw⟩
  case neg =>
    by_cases hs : c ∈ special
    case neg =>
      refine ⟨word, List.mem_append_right _ (List.mem_singleton.mpr rfl), nofun, ?_⟩
      exact List.forall_mem_singleton.mpr (by simp [isPlain, hw, hs])
    case pos =>
      simp only [special, List.mem_cons, List.not_mem_nil, or_false] at hs
      rcases hs with rfl | rfl | rfl | rfl | rfl | rfl | rfl | rfl | rfl | rfl
      exacts [⟨_, hm 0, rfl⟩, ⟨_, hm 14, rfl⟩, ⟨_, hm 3, rfl⟩, ⟨_, hm 4, rfl⟩, ⟨_, hm 5, rfl⟩,
        ⟨_, hm 6, rfl⟩, ⟨_, hm 7, rfl⟩, ⟨_, hm 8, rfl⟩, ⟨_, hm 9, rfl⟩, ⟨_, hm 13, rfl⟩]

-- So the rules leave no text unmatched.
theorem exists_match? (h : cs ≠ []) : ∃ m, grammar.match? cs = some m := by
  obtain ⟨c, cs, rfl⟩ := List.exists_cons_of_ne_nil h
  obtain ⟨r, hr, hl⟩ := exists_language c
  cases hm : grammar.match? (c :: cs)
  case some m => exact ⟨m, rfl⟩
  case none   =>
    have hn := Grammar.match?_eq_none_iff.mp hm r hr
    exact absurd hl ((longest_of_mem hr).eq_none_iff.mp hn _ (by simp))

end Expression

end ArgTree
