import ArgTree.Proofs.Parser.Followed
import ArgTree.Proofs.Written.Lexemes

namespace ArgTree

open Expression ArgTree.Parser Lookahead

namespace Expression

-- Only whitespace begins with white space.
theorem kind_of_isPrefix_whitespace (hp : IsWhiteSpace cs) (h : language r u) (hu : u <+: cs) :
    r.kind = .whitespace := by
  cases u
  case nil => exact absurd h not_language_nil
  case cons c u =>
    have hw := hp.right c (hu.mem List.mem_cons_self)
    exact (language_edge h (.inl rfl)).right hw

theorem lexes_of_isWhiteSpace {white : String} (h : IsWhiteSpace white.toList) :
    Lexes white.toList [⟨.whitespace, .str white, white⟩] := by
  have hk : ∀ q ∈ rules.take 10, q.kind ≠ .whitespace := by decide +kernel
  refine lexes_of_first (t := ⟨.whitespace, .str white, white⟩) (allRules_eq 10 (by decide)) ?_ h
    rfl rfl rfl
  exact fun q hq u hL hu => hk q hq (kind_of_isPrefix_whitespace h hL hu)

theorem Takes.isWhiteSpace (h : Takes t cs) (hk : t.kind = .whitespace) :
    IsWhiteSpace t.text.toList := by
  obtain ⟨r, hr, hl⟩ := h.language_text hk
  simpa only [language, hr] using hl

theorem IsWhiteSpace.append {a b : String} (h : IsWhiteSpace a.toList)
    (h' : IsWhiteSpace b.toList) : IsWhiteSpace (a ++ b).toList := by
  rw [String.toList_append]
  refine ⟨List.append_ne_nil_of_left_ne_nil h.left _, fun c hc => ?_⟩
  exact (List.mem_append.mp hc).elim (h.right c) (h'.right c)

-- White space in front of a text is cut off together with the whitespace that the text begins with.
theorem Lexes.exists_respaced {white : String} (hw : IsWhiteSpace white.toList) (h : Lexes cs as) :
    ∃ bs, Lexes (white.toList ++ cs) bs ∧ kind bs = .whitespace ∧
      skipWhitespace bs = skipWhitespace as := by
  cases h
  case nil =>
    refine ⟨[⟨.whitespace, .str white, white⟩], ?_, rfl, rfl⟩
    simpa using lexes_of_isWhiteSpace hw
  case cons u cs as hu has =>
    by_cases hk : u.kind = .whitespace
    case neg =>
      have hl := (lexes_of_isWhiteSpace hw).cons_of_standApart (.cons hu has) fun t ht => by
        cases ht
        exact ⟨by simp [isRun], fun h => hk h.right⟩
      exact ⟨_, hl, rfl, by simp [skipWhitespace]⟩
    case pos =>
      have hwu := hw.append (hu.isWhiteSpace hk)
      have hl := (lexes_of_isWhiteSpace hwu).cons_of_standApart has fun t ht => by
        refine ⟨by simp [isRun], fun h => ?_⟩
        cases has
        case nil => contradiction
        case cons hv _ =>
          cases ht
          exact hu.not_whitespace hv hk h.right
      rw [String.toList_append, List.append_assoc] at hl
      exact ⟨_, hl, rfl, by simp [skipWhitespace, hk]⟩

end Expression

open TokenSequence

-- White space behind a comma means nothing, unless it is the first there in a group of commas. It
-- is the delimiter that ends the group, and the comma in front of it lacks its item.
theorem parse_comma_space_iff {text white : String} (hs : ofSource text = .ok s)
    (hl : s.lexemes = front ++ c :: as) (hc : c.kind = .comma)
    (hf : ∀ t ∈ front, t.kind ≠ .escape ∧ t.kind ≠ .lParen) (hw : IsWhiteSpace white.toList)
    (unwrap : Bool) (m : Nat) (v : Value) :
    parse (Lexeme.textOf (front ++ [c]) ++ white ++ Lexeme.textOf as)
        { unwrapSingleton := unwrap, maxDepth := m } = .ok v ↔
      parse text { unwrapSingleton := unwrap, maxDepth := m } = .ok v ∧
        (kind as = .whitespace ∨ ¬InCommaGroup m s.lexemes c as) := by
  have hx := lexes_of_ofSource hs
  have hx' : Lexes text.toList ((front ++ [c]) ++ as) := by
    rwa [← List.append_cons, ← hl]
  obtain ⟨bs, hbs, hb, hbw⟩ := hx'.of_append_right.exists_respaced hw
  have hy := hx'.of_append_left.append_of_standApart hbs fun t ht u hu => by
    obtain rfl : c = t := by simpa using ht
    exact .of_left (by simp [isRun, hc]) (by simp [hc]) _
  rw [← List.append_assoc, ← String.toList_append, ← String.toList_append, ← List.append_cons] at hy
  rw [parse_eq_ok_iff_of_lexes hy, parse_eq_ok_iff_of_lexes hx, hl]
  constructor
  case mp =>
    rintro ⟨vs, hr, hv⟩
    obtain ⟨hr, hg⟩ := (readsLevel_respaced_iff hf hc hbw hb).mp hr
    exact ⟨⟨vs, hr, hv⟩, hg⟩
  case mpr =>
    rintro ⟨⟨vs, hr, hv⟩, hg⟩
    exact ⟨vs, (readsLevel_respaced_iff hf hc hbw hb).mpr ⟨hr, hg⟩, hv⟩

-- The first comma opens a group, the second one comes behind an item of it.
theorem exists_ofSource_commas : ∃ s, ofSource "a b,c,d" = .ok s ∧ s.lexemes =
    [⟨.word, .str "a", "a"⟩, ⟨.whitespace, .str " ", " "⟩, ⟨.word, .str "b", "b"⟩,
      ⟨.comma, .str ",", ","⟩, ⟨.word, .str "c", "c"⟩, ⟨.comma, .str ",", ","⟩,
      ⟨.word, .str "d", "d"⟩] := by
  have hl : (ofSource "a b,c,d").map (·.lexemes) = .ok
      [⟨.word, .str "a", "a"⟩, ⟨.whitespace, .str " ", " "⟩, ⟨.word, .str "b", "b"⟩,
        ⟨.comma, .str ",", ","⟩, ⟨.word, .str "c", "c"⟩, ⟨.comma, .str ",", ","⟩,
        ⟨.word, .str "d", "d"⟩] := by cbv
  cases hs : ofSource "a b,c,d" <;> simp only [hs, Except.map] at hl
  case error => contradiction
  case ok s  => exact ⟨s, rfl, Except.ok.inj hl⟩

theorem parse_comma_space_iff_commas : ∃ s, ofSource "a b,c,d" = .ok s ∧
    ¬InCommaGroup 100 s.lexemes ⟨.comma, .str ",", ","⟩
      [⟨.word, .str "c", "c"⟩, ⟨.comma, .str ",", ","⟩, ⟨.word, .str "d", "d"⟩] ∧
    InCommaGroup 100 s.lexemes ⟨.comma, .str ",", ","⟩ [⟨.word, .str "d", "d"⟩] := by
  obtain ⟨s, hs, hl⟩ := exists_ofSource_commas
  let v : Value := .list [.str "a", .list [.str "b", .str "c", .str "d"]]
  have ho : parse "a b,c,d" = .ok v := by cbv
  refine ⟨s, hs, ?_, ?_⟩
  case refine_1 =>
    have hl : s.lexemes = [_, _, _] ++ _ :: _ := hl
    have hp : parse "a b, c,d" = .ok v := by cbv
    have h := (parse_comma_space_iff hs hl rfl (by simp) isWhiteSpace_blank true 100 v).mp hp
    exact h.right.resolve_left (by simp [kind])
  case refine_2 =>
    have hl : s.lexemes = [_, _, _, _, _] ++ _ :: _ := hl
    have hp : (parse "a b,c, d").isOk = false := by cbv
    by_contra hn
    have h := (parse_comma_space_iff hs hl rfl (by simp) isWhiteSpace_blank true 100 v).mpr
      ⟨ho, .inr hn⟩
    have hk : (parse "a b,c, d").isOk := congrArg Except.isOk h
    exact Bool.false_ne_true (hp.symm.trans hk)

-- So a space is refused behind the second comma, though nothing is escaped or in parentheses.
theorem parse_comma_space_refused : ∃ s front c as, ofSource "a b,c,d" = .ok s ∧
    s.lexemes = front ++ c :: as ∧ c.kind = .comma ∧
    '\\' ∉ "a b,c,d".toList ∧ '(' ∉ "a b,c,d".toList ∧
    parse "a b,c,d" = .ok (.list [.str "a", .list [.str "b", .str "c", .str "d"]]) ∧
    parse (Lexeme.textOf (front ++ [c]) ++ " " ++ Lexeme.textOf as) = .error
      { kind := .itemExpected, character := some " ", source := "a b,c, d", offset := 6,
        retry := some true } := by
  obtain ⟨s, hs, hl⟩ := exists_ofSource_commas
  have hl : s.lexemes = [_, _, _, _, _] ++ _ :: _ := hl
  have ho : parse "a b,c,d" = .ok (.list [.str "a", .list [.str "b", .str "c", .str "d"]]) := by cbv
  have hp : parse "a b,c, d" = .error
      { kind := .itemExpected, character := some " ", source := "a b,c, d", offset := 6,
        retry := some true } := by cbv
  exact ⟨s, _, _, _, hs, hl, rfl, by decide, by decide, ho, hp⟩

end ArgTree
