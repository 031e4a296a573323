import ArgTree.Proofs.Parser.Padded
import ArgTree.Proofs.Written.CommaSpace
import ArgTree.Proofs.Written.Items

namespace ArgTree

open Expression ArgTree.Parser Lookahead

namespace Expression.Lexes

variable {white : String}

-- Whitespace does not follow whitespace.
theorem not_whitespace_of_append (h : Lexes cs (front ++ [t] ++ w :: as))
    (hw : w.kind = .whitespace) : t.kind ≠ .whitespace := by
  have hi : Lexes (Lexeme.textOf [t, w]).toList [t, w] := h.of_isInfix ⟨front, as, by simp⟩
  generalize (Lexeme.textOf [t, w]).toList = xs at hi
  cases hi with
  | cons ht hi =>
    cases hi with
    | cons hw' _ => exact fun hk => ht.not_whitespace hw' hk hw

theorem append_white (hf : Lexes xs front) (ha : Lexes cs as) (hw : IsWhiteSpace white.toList)
    (hn : ∀ t ∈ front.getLast?, t.kind ≠ .whitespace) :
    ∃ bs, Lexes (xs ++ (white.toList ++ cs)) (front ++ bs) ∧
      skipWhitespace bs = skipWhitespace as := by
  obtain ⟨bs, hb, hk, hs⟩ := ha.exists_respaced hw
  refine ⟨bs, hf.append_of_standApart hb fun t ht u hu => ?_, hs⟩
  cases bs <;> cases hu
  have hk : u.kind = .whitespace := hk
  simp [StandApart, hk, hn t ht, isRun]

-- White space between lexemes becomes one lexeme with the whitespace in front of it and behind it.
theorem exists_inserted (h : Lexes cs (front ++ as)) (hw : IsWhiteSpace white.toList) :
    ∃ f ws bs, front = f ++ ws ∧ (∀ w ∈ ws, w.kind = .whitespace) ∧
      Lexes (Lexeme.textOf front ++ white ++ Lexeme.textOf as).toList (f ++ bs) ∧
      skipWhitespace bs = skipWhitespace as := by
  have ha := h.of_append_right
  rcases front.eq_nil_or_concat' with rfl | ⟨front, w, rfl⟩
  case inl =>
    obtain ⟨bs, hb, hs⟩ := nil.append_white ha hw (by simp)
    exact ⟨[], [], bs, rfl, List.forall_mem_nil _, by simpa [Lexeme.textOf] using hb, hs⟩
  case inr =>
    by_cases hk : w.kind = .whitespace
    case neg =>
      obtain ⟨bs, hb, hs⟩ := h.of_append_left.append_white ha hw (by simp [hk])
      exact ⟨front ++ [w], [], bs, by simp, List.forall_mem_nil _, by simpa using hb, hs⟩
    case pos =>
      obtain ⟨_, ht⟩ := h.takes_of_mem (t := w) (by simp)
      have hf : Lexes (Lexeme.textOf front).toList front := h.of_append_left.of_append_left
      obtain ⟨bs, hb, hs⟩ := hf.append_white ha ((ht.isWhiteSpace hk).append hw) fun t ht => by
        obtain ⟨g, rfl⟩ := List.getLast?_eq_some_iff.mp ht
        rw [List.append_assoc (g ++ [t])] at h
        exact not_whitespace_of_append h hk
      refine ⟨front, [w], bs, rfl, by simpa using hk, ?_, hs⟩
      simpa [Lexeme.textOf_append, Lexeme.textOf] using hb

end Expression.Lexes

-- White space is padding at the start of a text, in front of a comma, a closing bracket, an `=` and
-- the end, and behind an opening bracket and an `=`.
def IsPadding (front as : List Lexeme) : Prop :=
  front = [] ∨ (kind as).padsBefore ∨ ∃ t ∈ front.getLast?, t.kind.padsBehind

theorem Parser.readsLevel_inserted_iff (hp : IsPadding (front ++ ws) as)
    (hf : ∀ t ∈ front ++ ws, t.kind ≠ .escape ∧ t.kind ≠ .lParen)
    (hw : ∀ w ∈ ws, w.kind = .whitespace) (hs : skipWhitespace bs = skipWhitespace as) :
    ReadsLevel (nested m) .endOfText none (front ++ bs) vs [] ↔
      ReadsLevel (nested m) .endOfText none (front ++ ws ++ as) vs [] := by
  have hwas : skipWhitespace (ws ++ as) = skipWhitespace as := Written.skipWhitespace_append hw as
  rw [List.forall_mem_append] at hf
  rcases hp with hn | hk | ⟨t, ht, hk⟩
  case inl =>
    obtain ⟨rfl, rfl⟩ := List.append_eq_nil_iff.mp hn
    exact ⟨fun h => h.of_skipWhitespace_eq hs, fun h => h.of_skipWhitespace_eq hs.symm⟩
  case inr.inl =>
    have hn : kind as ≠ .whitespace := by
      intro hw
      simp [hw, Kind.padsBefore, Kind.isClosing, Kind.opening?] at hk
    rw [List.append_assoc]
    refine readsLevel_padded_iff (.of_append hf.left (.before ?_ (hs.trans hwas.symm)))
    rwa [hs, skipWhitespace_of_kind hn]
  case inr.inr =>
    have hn : ws = [] := by
      by_contra hn
      rw [List.getLast?_append_of_ne_nil _ hn] at ht
      exact Kind.not_padsBehind_of_delimits (.inl (hw t (List.mem_of_getLast? ht))) hk
    subst hn
    rw [List.append_nil] at ht
    obtain ⟨front, rfl⟩ := List.getLast?_eq_some_iff.mp ht
    rw [List.forall_mem_append] at hf
    simp only [List.append_nil, ← List.append_cons]
    exact readsLevel_padded_iff (.of_append hf.left.left (.behind hk hs))

open TokenSequence

-- Padding means nothing, if there is nothing in front of it that could make it text.
theorem parse_padding_iff {text white : String} (hs : ofSource text = .ok s)
    (hl : s.lexemes = front ++ as) (hp : IsPadding front as)
    (hf : ∀ t ∈ front, t.kind ≠ .escape ∧ t.kind ≠ .lParen) (hw : IsWhiteSpace white.toList)
    (unwrap : Bool) (m : Nat) (v : Value) :
    parse (Lexeme.textOf front ++ white ++ Lexeme.textOf as)
        { unwrapSingleton := unwrap, maxDepth := m } = .ok v ↔
      parse text { unwrapSingleton := unwrap, maxDepth := m } = .ok v := by
  have hx := hl ▸ lexes_of_ofSource hs
  obtain ⟨f, ws, bs, rfl, hws, hy, hb⟩ := hx.exists_inserted hw
  rw [parse_eq_ok_iff_of_lexes hy, parse_eq_ok_iff_of_lexes hx]
  simp only [List.drop_zero, readsLevel_inserted_iff hp hf hws hb]

theorem parse_padding_iff_equals : ∃ s, ofSource "a,[b=c]" = .ok s ∧ ∃ front as,
    s.lexemes = front ++ as ∧ IsPadding front as ∧ Lexeme.textOf front = "a,[b" ∧
    parse "a,[b =c]" = .ok (.list [.str "a", .list [.map [("b", .str "c")]]]) := by
  have hl : (ofSource "a,[b=c]").map (·.lexemes) = .ok
      ([⟨.word, .str "a", "a"⟩, ⟨.comma, .str ",", ","⟩, ⟨.lSquare, .str "[", "["⟩,
        ⟨.word, .str "b", "b"⟩] ++ [⟨.equals, .str "=", "="⟩, ⟨.word, .str "c", "c"⟩,
        ⟨.rSquare, .str "]", "]"⟩]) := by cbv
  cases hs : ofSource "a,[b=c]" <;> simp only [hs, Except.map] at hl
  case error => contradiction
  case ok s  =>
    have hl := Except.ok.inj hl
    have hp front as : IsPadding front (⟨.equals, .str "=", "="⟩ :: as) :=
      .inr (.inl (.inr (.inr (.inr rfl))))
    have hv : parse "a,[b=c]" = .ok (.list [.str "a", .list [.map [("b", .str "c")]]]) := by cbv
    have hq := (parse_padding_iff hs hl (hp _ _) (by simp) isWhiteSpace_blank true 100 _).mpr hv
    exact ⟨s, rfl, _, _, hl, hp _ _, rfl, hq⟩

end ArgTree
