import ArgTree.Proofs.Parser.Locations

namespace ArgTree

open Expression

-- The token as it is if `n` characters stand in front of the text.
def Token.moved (n : Nat) (t : Token) : Token :=
  { t with span := ⟨t.span.start + n, t.span.stop + n⟩ }

-- The error as it is if the text is the end of `whole`, with `n` characters in front of it.
def ParseError.moved (whole : String) (n : Nat) (e : ParseError) : ParseError :=
  { e with source := whole, offset := e.offset + n }

namespace Token

theorem SideBySide.drop (h : SideBySide start ts) (k : Nat) :
    SideBySide (start + (Lexeme.textOf ((ts.take k).map (·.toLexeme))).length) (ts.drop k) := by
  induction ts generalizing start k
  case nil => simp [SideBySide]
  case cons t ts hi =>
    cases k
    case zero   => simpa [Lexeme.textOf] using h
    case succ k =>
      obtain ⟨_, _, h⟩ := h
      simpa [Lexeme.textOf_cons, Nat.add_assoc] using hi h k

theorem SideBySide.take (h : SideBySide start ts) (k : Nat) : SideBySide start (ts.take k) := by
  induction ts generalizing start k
  case nil => simp [SideBySide]
  case cons t ts hi =>
    cases k
    case zero   => trivial
    case succ k =>
      obtain ⟨hn, hs, h⟩ := h
      exact ⟨hn, hs, hi h k⟩

-- Tokens that lie side by side are the same lexemes at the same places, from wherever they begin.
theorem SideBySide.eq_map_moved (h : SideBySide (start + n) ts) (h' : SideBySide start us)
    (he : ts.map (·.toLexeme) = us.map (·.toLexeme)) : ts = us.map (moved n) := by
  induction ts generalizing start us
  case nil =>
    cases List.map_eq_nil_iff.mp he.symm
    rfl
  case cons t ts hi =>
    cases us
    case nil => simp at he
    case cons u us =>
      have ⟨ht, he⟩ := List.cons.inj he
      have ⟨_, hs, h⟩ := h
      have ⟨_, hs', h'⟩ := h'
      have hn : start + n + t.text.length = start + u.text.length + n := by
        rw [show t.text = u.text from congrArg Lexeme.text ht]
        omega
      have hu : t = moved n u := by
        obtain ⟨_, _⟩ := t
        obtain ⟨_, _⟩ := u
        simp_all [moved]
      rw [List.map_cons, ← hi (hn ▸ h) h' he, hu]

end Token

namespace TokenSequence

open ArgTree.Parser

variable {s r : TokenSequence} {text : String}

theorem length_text_eq_add (s : TokenSequence) (k : Nat) :
    s.text.length = s.offset k + (Lexeme.textOf (s.lexemesFrom k)).length := by
  rw [text, ← List.take_append_drop k s.lexemes, Lexeme.textOf_append, String.length_append]
  simp [offset, lexemesFrom]

-- Both show the same lexeme, at the same distance from the end of their texts.
theorem errorOf_eq_moved (hl : r.lexemes = s.lexemesFrom k) (hf : f.rest <:+ r.lexemes) :
    s.errorOf f = (r.errorOf f).moved s.text (s.offset k) := by
  obtain ⟨before, hb⟩ := hf
  have hs := s.length_text_eq_add k
  have hr : r.text.length = (Lexeme.textOf before).length + (Lexeme.textOf f.rest).length := by
    rw [TokenSequence.text, ← hb, Lexeme.textOf_append, String.length_append]
  rw [← hl, ← TokenSequence.text] at hs
  simp only [errorOf, errorBefore, ParseError.withCharacter, ParseError.moved, ParseError.mk.injEq,
    and_true, true_and]
  omega

-- To begin behind some tokens is to read the text of the others. It is cut into the same tokens,
-- and a failure is the same but for its place.
theorem parse_start_eq_parse_rest (hs : ofSource text = .ok s) (k : Nat) :
    ∃ r, ofSource (Lexeme.textOf (s.lexemesFrom k)) = .ok r ∧
      s.tokens.drop k = r.tokens.map (Token.moved (s.offset k)) ∧
      ∀ unwrap m, s.parse { start := k, unwrapSingleton := unwrap, maxDepth := m } =
        (r.parse { unwrapSingleton := unwrap, maxDepth := m }).mapError
          (ParseError.moved text (s.offset k)) := by
  have hl : s.lexemes = s.lexemes.take k ++ s.lexemesFrom k := (List.take_append_drop k _).symm
  obtain ⟨r, hr, hlr⟩ := exists_ofSource (hl ▸ lexes_of_ofSource hs).of_append_right
  refine ⟨r, hr, ?_, fun unwrap m => ?_⟩
  case refine_1 =>
    have hd := (sideBySide_of_ofSource hs).drop k
    rw [List.map_take] at hd
    refine hd.eq_map_moved (sideBySide_of_ofSource hr) ?_
    rw [List.map_drop]
    exact hlr.symm
  case refine_2 =>
    have ho : s.parseOutcome { start := k, unwrapSingleton := unwrap, maxDepth := m } =
        r.parseOutcome { unwrapSingleton := unwrap, maxDepth := m } := by
      rw [parseOutcome, parseOutcome, ← hlr]
      rfl
    rw [parse, ho, parse]
    cases hf : r.parseOutcome { unwrapSingleton := unwrap, maxDepth := m }
    case ok      => rfl
    case error f =>
      simp only [Except.mapError, errorOf_eq_moved hlr (fault_suffix hf), text_of_ofSource hs]

-- The second comma of the rest is at fault, which is the fourth character of the whole text.
theorem parse_start_eq_parse_rest_commas : ∃ s, ofSource "ä,b,,c" = .ok s ∧
    s.parse { start := 2 } = .error
      { kind := .itemExpected, character := some ",", source := "ä,b,,c", offset := 4,
        retry := some true } := by
  have hk : (ofSource "ä,b,,c").map (fun s => (s.lexemesFrom 2, s.offset 2)) = .ok
      ([⟨.word, .str "b", "b"⟩, ⟨.comma, .str ",", ","⟩, ⟨.comma, .str ",", ","⟩,
        ⟨.word, .str "c", "c"⟩], 2) := by cbv
  have he : (ofSource "b,,c").bind (·.parse) = .error
      { kind := .itemExpected, character := some ",", source := "b,,c", offset := 2,
        retry := some true } := by cbv
  cases hs : ofSource "ä,b,,c" <;> simp only [hs, Except.map] at hk
  case error => contradiction
  case ok s  =>
    obtain ⟨hl, ho⟩ := Prod.mk.inj (Except.ok.inj hk)
    obtain ⟨r, hr, _, hp⟩ := parse_start_eq_parse_rest hs 2
    have ht : Lexeme.textOf (s.lexemesFrom 2) = "b,,c" := by rw [hl]; rfl
    rw [ht] at hr
    simp only [hr, Except.bind] at he
    refine ⟨s, rfl, (hp true 100).trans ?_⟩
    rw [he, ho]
    rfl

end TokenSequence

end ArgTree
