import ArgTree.Proofs.Expression.Patterns

namespace ArgTree

theorem Grammar.matchLength?_of_match? {g : Grammar} (h : g.match? cs = some (r, n)) :
    r.pattern.matchLength? cs = some n := by
  have ⟨_, _, h⟩ := List.exists_of_findSome?_eq_some h
  have ⟨_, h, he⟩ := Option.map_eq_some_iff.mp h
  cases he
  exact h

namespace Lexer

theorem piece_eq_ok_iff {l l' : Lexer} : l.piece = .ok (r, t, l') ↔
    ∃ n value, l.grammar.match? l.rest = some (r, n) ∧ r.refusal = none ∧
      r.convert (String.ofList (l.rest.take n)) = .ok value ∧
      t = { kind := r.kind, value, text := String.ofList (l.rest.take n),
            span := ⟨l.offset, l.offset + (l.rest.take n).length⟩ } ∧
      l' = { l with
             rest     := l.rest.drop n
             offset   := l.offset + (l.rest.take n).length
             counters := (l.counters.addIf r.increment 1).addIf r.decrement (-1) } := by
  constructor
  case mp =>
    intro h
    simp only [piece, fail] at h
    split at h <;> try contradiction
    case h_2 r n hm =>
      split at h <;> try contradiction
      case h_2 hr =>
        split at h <;> try contradiction
        case h_2 value hv =>
          injection h with h
          simp only [Prod.mk.injEq] at h
          obtain ⟨rfl, rfl, rfl⟩ := h
          exact ⟨n, value, hm, hr, hv, rfl, rfl⟩
  case mpr =>
    rintro ⟨n, value, hm, hr, hv, rfl, rfl⟩
    simp [piece, hm, hr, hv]

end Lexer

namespace Expression

theorem not_ignored_of_mem (h : r ∈ grammar.allRules) : r.ignored = false := by
  have : ∀ r ∈ grammar.allRules, r.ignored = false := by decide +kernel
  exact this r h

-- The lexeme `t` is cut off in front of the text `cs`.
def Takes (t : Lexeme) (cs : List Char) : Prop :=
  ∃ r, grammar.match? (t.text.toList ++ cs) = some (r, t.text.toList.length) ∧ r.refusal = none ∧
    r.kind = t.kind ∧ r.convert t.text = .ok t.value

-- A text is cut into lexemes.
inductive Lexes : List Char → List Lexeme → Prop
  | nil  : Lexes [] []
  | cons : Takes t cs → Lexes cs ts → Lexes (t.text.toList ++ cs) (t :: ts)

theorem length_le_of_match? (h : grammar.match? cs = some (r, n)) : n ≤ cs.length := by
  have hm := Grammar.matchLength?_of_match? h
  exact ((longest_of_mem (Grammar.mem_of_match? h)).sound hm).left

theorem takes_of_piece {l l' : Lexer} (hg : l.grammar = grammar) (h : l.piece = .ok (r, t, l')) :
    l.rest = t.text.toList ++ l'.rest ∧ Takes t.toLexeme l'.rest ∧ l'.grammar = grammar ∧
      r.ignored = false := by
  obtain ⟨n, value, hm, hr, hv, rfl, rfl⟩ := Lexer.piece_eq_ok_iff.mp h
  rw [hg] at hm
  have hl : (l.rest.take n).length = n := by
    have := length_le_of_match? hm
    simp only [List.length_take]
    omega
  refine ⟨by simp, ⟨r, ?_, hr, rfl, hv⟩, hg, not_ignored_of_mem (Grammar.mem_of_match? hm)⟩
  simp only [String.toList_ofList, List.take_append_drop, hl, hm]

theorem piece_of_takes {l : Lexer} (hg : l.grammar = grammar) (hl : l.rest = t.text.toList ++ cs)
    (h : Takes t cs) : ∃ r u l', l.piece = .ok (r, u, l') ∧ u.toLexeme = t ∧ l'.rest = cs ∧
      l'.grammar = grammar ∧ r.ignored = false := by
  obtain ⟨r, hm, hr, hk, hv⟩ := h
  have hi := not_ignored_of_mem (Grammar.mem_of_match? hm)
  have ht : String.ofList (l.rest.take t.text.toList.length) = t.text := by simp [hl]
  rw [← hl, ← hg] at hm
  rw [← ht] at hv
  refine ⟨r, _, _, Lexer.piece_eq_ok_iff.mpr ⟨_, t.value, hm, hr, hv, rfl, rfl⟩, ?_, ?_, hg, hi⟩
  · simp only [ht, hk]
  · simp [hl]

theorem toList_textOf_cons (t : Lexeme) (ts : List Lexeme) :
    (Lexeme.textOf (t :: ts)).toList = t.text.toList ++ (Lexeme.textOf ts).toList := by
  simp [Lexeme.textOf, String.join_cons]

theorem toList_textOf_append (ts us : List Lexeme) :
    (Lexeme.textOf (ts ++ us)).toList = (Lexeme.textOf ts).toList ++ (Lexeme.textOf us).toList := by
  simp [Lexeme.textOf, String.join_append]

theorem ne_nil_of_takes (h : Takes t cs) : t.text.toList ≠ [] := by
  obtain ⟨_, hm, _⟩ := h
  exact List.ne_nil_of_length_pos (Grammar.match?_pos hm)

namespace Lexes

theorem of_collect {l : Lexer} (hg : l.grammar = grammar) (h : l.collect = .ok lexed) :
    Lexes l.rest (lexed.tokens.map (·.toLexeme)) := by
  fun_induction Lexer.collect generalizing lexed
  case case1 hr =>
    injection h with h
    simp [← h, hr, nil]
  case case2 => contradiction
  case case3 hp hr _ =>
    have ⟨_, _, _, hn⟩ := takes_of_piece hg hp
    simp [hr] at hn
  case case4 l _ _ t l' hp _ hi =>
    have ⟨hc, ht, hg', _⟩ := takes_of_piece hg hp
    cases hc' : l'.collect <;> simp only [hc', Except.map] at h <;> try contradiction
    case ok lexed' =>
      injection h with h
      rw [hc, ← h]
      exact cons ht (hi hg' hc')

theorem collect (h : Lexes cs ts) {l : Lexer} (hg : l.grammar = grammar) (hl : l.rest = cs) :
    ∃ lexed, l.collect = .ok lexed ∧ lexed.tokens.map (·.toLexeme) = ts := by
  induction h generalizing l
  case nil =>
    exact ⟨{ tokens := [], counters := l.counters }, by rw [Lexer.collect, dif_pos hl], rfl⟩
  case cons t cs ts ht _ hi =>
    have ⟨r, u, l', hp, hu, hl', hg', hr⟩ := piece_of_takes hg hl ht
    have ⟨lexed, hc, he⟩ := hi hg' hl'
    have hn : l.rest ≠ [] := by simp [hl, ne_nil_of_takes ht]
    refine ⟨{ lexed with tokens := u :: lexed.tokens }, ?_, by simp [hu, he]⟩
    rw [Lexer.collect, dif_neg hn]
    split <;> simp_all [Except.map]

theorem iff_lex {s : String} :
    Lexes s.toList ts ↔
      ∃ lexed, grammar.lex s = .ok lexed ∧ lexed.tokens.map (·.toLexeme) = ts := by
  constructor
  case mp =>
    intro h
    exact h.collect (l := .ofSource grammar s) rfl rfl
  case mpr =>
    rintro ⟨lexed, h, rfl⟩
    exact of_collect (l := .ofSource grammar s) rfl h

theorem of_map_lex {s : String}
    (h : (grammar.lex s).map (fun lexed => lexed.tokens.map (·.toLexeme)) = .ok ts) :
    Lexes s.toList ts := by
  cases hl : grammar.lex s <;> simp only [hl] at h
  case error    => contradiction
  case ok lexed => exact iff_lex.mpr ⟨lexed, hl, Except.ok.inj h⟩

theorem eq_toList_textOf (h : Lexes cs ts) : cs = (Lexeme.textOf ts).toList := by
  induction h
  case nil          => rfl
  case cons t _ ts _ _ hi => rw [toList_textOf_cons, ← hi]

theorem unique (h : Lexes cs ts) (h' : Lexes cs us) : ts = us := by
  have ⟨_, h₁, h₂⟩ := h.collect (l := { grammar, rest := cs }) rfl rfl
  have ⟨_, h₃, h₄⟩ := h'.collect (l := { grammar, rest := cs }) rfl rfl
  cases h₁.symm.trans h₃
  exact h₂.symm.trans h₄

end Lexes

end Expression

end ArgTree
