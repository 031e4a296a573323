import ArgTree.CaretMark
import ArgTree.Report
import ArgTree.Proofs.Lexing.Failures
import ArgTree.Proofs.Parser.Locations

namespace ArgTree

namespace CaretMark

-- A text without line breaks.
def IsLine (cs : List Char) : Prop :=
  '\n' ∉ cs ∧ '\r' ∉ cs

instance : Decidable (IsLine cs) :=
  inferInstanceAs (Decidable (_ ∧ _))

theorem isLine_append_iff : IsLine (as ++ bs) ↔ IsLine as ∧ IsLine bs := by
  simp only [IsLine, List.mem_append, not_or]
  exact and_and_and_comm

theorem IsLine.of_subset (h : IsLine bs) (hs : as ⊆ bs) : IsLine as :=
  ⟨fun hm => h.left (hs hm), fun hm => h.right (hs hm)⟩

-- The lines of a text with one more character in front of it.
def prepend (c : Char) : List (List Char) → List (List Char)
  | []      => [[c]]
  | l :: ls => (c :: l) :: ls

theorem lines_cons (h : IsLine [c]) (cs : List Char) : lines (c :: cs) = prepend c (lines cs) := by
  have hn : c ≠ '\n' := fun he => h.left (he ▸ List.mem_cons_self)
  have hr : c ≠ '\r' := fun he => h.right (he ▸ List.mem_cons_self)
  rw [lines]
  · rfl
  · exact fun _ hc _ => hr hc
  · exact hn

-- A line ends at the first newline.
theorem lines_append (h : IsLine l) (cs : List Char) : lines (l ++ '\n' :: cs) = l :: lines cs := by
  induction l
  case nil => simp [lines]
  case cons c l hi =>
    obtain ⟨hc, hl⟩ := isLine_append_iff.mp (show IsLine ([c] ++ l) from h)
    rw [List.cons_append, lines_cons hc, hi hl]
    rfl

theorem lines_concat (h : IsLine (l ++ [c])) : lines (l ++ [c]) = [l ++ [c]] := by
  induction l
  case nil => rw [List.nil_append, lines_cons h]; rfl
  case cons d l hi =>
    obtain ⟨hd, hl⟩ := isLine_append_iff.mp (show IsLine ([d] ++ (l ++ [c])) from h)
    rw [List.cons_append, lines_cons hd, hi hl]
    rfl

-- A caret behind blanks in the second line is read as the number of blanks.
theorem read?_blanks (h : IsLine source.toList) (n : Nat) :
    read? (source ++ "\n" ++ String.ofList (List.replicate n ' ') ++ "^") = some (source, n) := by
  have hb : IsLine (List.replicate n ' ' ++ ['^']) := by
    simp [IsLine, List.mem_replicate]
  have hl : lines (source ++ "\n" ++ String.ofList (List.replicate n ' ') ++ "^").toList =
      [source.toList, List.replicate n ' ' ++ ['^']] := by
    rw [← lines_concat hb, ← lines_append h]
    simp
  have hi : (List.replicate n ' ' ++ ['^']).findIdx? (· = '^') = some n := by
    simp [List.findIdx?_append, List.findIdx?_replicate]
  rw [read?, hl]
  simp [hi]

end CaretMark

namespace ParseError

open CaretMark

theorem isLine_message_cause (c : Cause) : IsLine c.message.toList := by
  cases c <;> decide

theorem isLine_message_integer (r : IntegerError) : IsLine r.message.toList := by
  cases r <;> decide

-- The message of a failed conversion holds the offending text.
theorem isLine_message_fails (h : Expression.Fails cs cause text) (hl : IsLine cs) (offset : Nat) :
    IsLine (LexError.message ⟨cause, text, offset⟩).toList := by
  cases h with
  | quote    =>
    simp only [LexError.message]
    decide
  | overflow =>
    have hm (r : IntegerError) : LexError.message ⟨.conversion (.integer text r), text, offset⟩ =
        "invalid integer `" ++ text ++ "`: " ++ r.message := rfl
    have hq : IsLine "invalid integer `".toList ∧ IsLine "`: ".toList := by decide
    simp only [hm, String.toList_append, isLine_append_iff]
    exact ⟨⟨⟨hq.left, (isLine_append_iff.mp hl).left⟩, hq.right⟩, isLine_message_integer _⟩

theorem pointsInto_ofLexError {text : String} (h : Expression.grammar.lex text = .error e) :
    (ofLexError e text).PointsInto text := by
  obtain ⟨ts, rest, ht, hr, ho⟩ := Grammar.exists_rejects_of_lex h
  obtain ⟨before, hb, hl⟩ := ht.splits
  obtain ⟨hn, behind, he⟩ := hr.splits
  exact .withCharacter rfl rfl (ho.trans hl.symm) (he ▸ hb) fun h => absurd h hn

theorem isLine_message_ofLexError {text : String} (h : Expression.grammar.lex text = .error e)
    (hl : IsLine text.toList) : IsLine (ofLexError e text).message.toList := by
  obtain ⟨ts, rest, ht, hr, -⟩ := Grammar.exists_rejects_of_lex h
  obtain ⟨before, hb, -⟩ := ht.splits
  have hf := Expression.rejects_iff_fails.mp hr
  exact isLine_message_fails hf (isLine_append_iff.mp (hb ▸ hl)).right e.offset

end ParseError

theorem TokenSequence.pointsInto_of_ofSource {s : TokenSequence} {text : String}
    (hs : ofSource text = .ok s) (h : s.parse o = .error e) : e.PointsInto text ∧
      ((∃ t ∈ s.tokens, e.PointsAt t) ∨ e.offset = text.length) := by
  obtain ⟨f, hf, rfl⟩ := parse_eq_error_iff.mp h
  have hp := errorBefore_pointsInto (sideBySide_of_ofSource hs) (fault_suffix hf) f.cause.kind
    f.cause.message
  rwa [text_of_ofSource hs] at hp

-- A failure is one of the lexer, or one of the parser behind it.
theorem parse_eq_error_iff {text : String} : parse text o = .error e ↔
    (∃ e', Expression.grammar.lex text = .error e' ∧ .ofLexError e' text = e) ∨
      ∃ s, TokenSequence.ofSource text = .ok s ∧ s.parse o = .error e := by
  simp only [parse, TokenSequence.ofSource, TokenSequence.ofGrammar]
  cases Expression.grammar.lex text <;> simp [bind, Except.bind]

section

open ParseError CaretMark

variable {text : String} {o : ParseOptions} {e : ParseError}

theorem pointsInto_of_parse (h : parse text o = .error e) : e.PointsInto text := by
  rcases parse_eq_error_iff.mp h with ⟨e', hl, rfl⟩ | ⟨s, hs, hp⟩
  case inl => exact pointsInto_ofLexError hl
  case inr => exact (TokenSequence.pointsInto_of_ofSource hs hp).left

theorem located_of_parse (h : parse text o = .error e) (hs : TokenSequence.ofSource text = .ok s) :
    (∃ t ∈ s.tokens, e.PointsAt t) ∨ e.offset = text.length := by
  simp only [parse, hs] at h
  exact (TokenSequence.pointsInto_of_ofSource hs h).right

theorem isLine_message_of_parse (h : parse text o = .error e) (hl : IsLine text.toList) :
    IsLine e.message.toList := by
  rcases parse_eq_error_iff.mp h with ⟨e', hlex, rfl⟩ | ⟨s, _, hp⟩
  case inl => exact isLine_message_ofLexError hlex hl
  case inr =>
    obtain ⟨f, _, rfl⟩ := TokenSequence.parse_eq_error_iff.mp hp
    exact isLine_message_cause f.cause

theorem isLine_preamble_of_parse (h : parse text o = .error e) (hl : IsLine text.toList) :
    IsLine e.preamble.toList := by
  have hp := pointsInto_of_parse h
  have hc : IsLine (e.character.getD "").toList := by
    cases hc : e.character
    case none   => decide
    case some c =>
      exact hl.of_subset fun _ hm => List.mem_of_mem_drop ((hp.shows c hc).right.subset hm)
  have hq : IsLine " \"".toList ∧ IsLine "\" : ".toList := by decide
  simp only [preamble, String.toList_append, isLine_append_iff]
  exact ⟨⟨⟨isLine_message_of_parse h hl, hq.left⟩, hc⟩, hq.right⟩

-- The caret of a rendering is read back in front of the offending text, or behind the line if there
-- is none.
theorem parse_error_caret (hn : '\n' ∉ text.toList) (hr : '\r' ∉ text.toList)
    (h : parse text o = .error e) (hi : e.indent ≤ widestIndent) :
    ∃ rendering line column, e.caret? = some rendering ∧
      CaretMark.read? rendering = some (line, column) ∧
      text.toList <:+ line.toList ∧ line.toList.drop column = text.toList.drop e.offset ∧
      (e.character = none → column = line.length) ∧
      ∀ c, e.character = some c → c ≠ "" ∧ c.toList <+: line.toList.drop column := by
  have hp := pointsInto_of_parse h
  have hl : IsLine (e.preamble ++ text).toList := by
    rw [String.toList_append, isLine_append_iff]
    exact ⟨isLine_preamble_of_parse h ⟨hn, hr⟩, hn, hr⟩
  have hd : (e.preamble ++ text).toList.drop e.indent = text.toList.drop e.offset := by
    rw [String.toList_append, indent, ← String.length_toList, List.drop_append]
    simp
  refine ⟨e.caret, e.preamble ++ text, e.indent, if_pos hi, ?_, ?_, hd, fun hc => ?_,
    fun c hc => ?_⟩
  case refine_1 =>
    rw [caret, hp.source]
    exact read?_blanks hl e.indent
  case refine_2 =>
    rw [String.toList_append]
    exact List.suffix_append ..
  case refine_3 => rw [indent, hp.atEnd.mp hc, String.length_append]
  case refine_4 => exact hd ▸ hp.shows c hc

-- The blank in front of the quote is the second character, though `ä` has two bytes.
theorem parse_error_caret_quote : ∃ e, parse "ä \"b" = .error e ∧
    '\n' ∉ "ä \"b".toList ∧ '\r' ∉ "ä \"b".toList ∧ e.indent ≤ widestIndent ∧
    ∃ rendering line column, e.caret? = some rendering ∧
      CaretMark.read? rendering = some (line, column) ∧ line.toList.drop column = "\"b".toList := by
  obtain ⟨e, he, hi, ho⟩ : ∃ e, parse "ä \"b" = .error e ∧ e.indent = 24 ∧ e.offset = 2 :=
    ⟨{ kind := .unmatchableText, message := "Unmatched quote", character := some "\"",
       source := "ä \"b", offset := 2, retry := some true }, by cbv, by decide, rfl⟩
  have hn : '\n' ∉ "ä \"b".toList := by decide
  have hr : '\r' ∉ "ä \"b".toList := by decide
  have hi : e.indent ≤ widestIndent := hi ▸ by decide
  obtain ⟨rendering, line, column, hc, hm, _, hd, _⟩ := parse_error_caret hn hr he hi
  exact ⟨e, he, hn, hr, hi, rendering, line, column, hc, hm, by rw [hd, ho]; decide⟩

-- The empty text denotes the empty list.
theorem parse_empty (o : ParseOptions) : parse "" o = .ok (.list []) := by
  have hl : Expression.Lexes "".toList [] := .nil
  rw [parse_eq_ok_iff_of_lexes hl, List.drop_nil]
  refine ⟨[], ⟨nofun, rfl, .ends rfl rfl⟩, ?_⟩
  cases o.unwrapSingleton <;> rfl

theorem ParseError.PointsInto.markedSpan_eq_span {text : String} (hp : e.PointsInto text)
    (hc : e.character ≠ none) :
    e.markedSpan = e.span ∧ e.span.start < e.span.stop ∧ e.span.stop ≤ text.length := by
  obtain ⟨c, hc⟩ := Option.ne_none_iff_exists'.mp hc
  obtain ⟨hn, hs⟩ := hp.shows c hc
  have hpos : 0 < c.length := Nat.pos_of_ne_zero (by simpa using hn)
  have hl := hs.length_le
  rw [List.length_drop, String.length_toList, String.length_toList] at hl
  have ho := hp.offset_le
  have hspan : e.span = ⟨e.offset, e.offset + c.length⟩ := by rw [ParseError.span, hc]; rfl
  have he : e.span.isEmpty = false := by
    rw [hspan, Span.isEmpty, decide_eq_false_iff_not]
    dsimp only
    omega
  refine ⟨if_pos (by simp [he]), ?_⟩
  rw [hspan]
  dsimp only
  omega

theorem ParseError.PointsInto.markedSpan_eq_last {text : String} (hp : e.PointsInto text)
    (hc : e.character = none) : e.markedSpan = ⟨text.length - 1, text.length⟩ := by
  have he : e.span.isEmpty := by simp [ParseError.span, hc, Span.isEmpty]
  simp [markedSpan, he, hp.source, hp.atEnd.mp hc]

-- What a report marks is the offending text, which is a token if the text is cut into tokens, and
-- the last character if the text ends too early. There always is one.
theorem parse_error_markedSpan (h : parse text o = .error e) :
    text ≠ "" ∧ e.markedSpan.start < e.markedSpan.stop ∧ e.markedSpan.stop ≤ text.length ∧
      (∀ c, e.character = some c → e.markedSpan = e.span ∧
        (text.toList.drop e.markedSpan.start).take e.markedSpan.length = c.toList ∧
        ∀ s, TokenSequence.ofSource text = .ok s →
          ∃ t ∈ s.tokens, t.span = e.markedSpan ∧ t.text = c) ∧
      (e.character = none → e.markedSpan = ⟨text.length - 1, text.length⟩) := by
  have hp := pointsInto_of_parse h
  have hn : text ≠ "" := by
    rintro rfl
    cases h.symm.trans (parse_empty o)
  have hb : e.markedSpan.start < e.markedSpan.stop ∧ e.markedSpan.stop ≤ text.length := by
    by_cases hc : e.character = none
    case pos =>
      rw [hp.markedSpan_eq_last hc]
      exact ⟨Nat.sub_one_lt (by simpa using hn), Nat.le_refl _⟩
    case neg =>
      obtain ⟨he, hb⟩ := hp.markedSpan_eq_span hc
      exact he ▸ hb
  refine ⟨hn, hb.left, hb.right, fun c hc => ?_, hp.markedSpan_eq_last⟩
  have hc' : e.character ≠ none := by simp [hc]
  obtain ⟨he, _⟩ := hp.markedSpan_eq_span hc'
  have hs := hp.span.right
  rw [hc] at hs
  refine ⟨he, he ▸ hs, fun s hs => ?_⟩
  obtain ⟨t, ht, hspan, htext⟩ := (located_of_parse h hs).resolve_right (mt hp.atEnd.mpr hc')
  exact ⟨t, ht, hspan ▸ he.symm, Option.some.inj (htext.symm.trans hc)⟩

-- The second comma of `ä,,b` is marked, and the last character of `[ä`.
theorem parse_error_markedSpan_comma :
    (∃ e, parse "ä,,b" = .error e ∧ e.character = some "," ∧ e.markedSpan = e.span ∧
      ("ä,,b".toList.drop e.markedSpan.start).take e.markedSpan.length = [',']) ∧
      ∃ e, parse "[ä" = .error e ∧ e.character = none ∧ e.markedSpan = ⟨1, 2⟩ := by
  have hc : parse "ä,,b" = .error
      { kind := .itemExpected, character := some ",", source := "ä,,b", offset := 2,
        retry := some true } := by cbv
  have he : parse "[ä" = .error
      { kind := .unexpectedEnd, source := "[ä", offset := 2, retry := some true } := by cbv
  obtain ⟨_, _, _, hm, _⟩ := parse_error_markedSpan hc
  obtain ⟨_, _, _, _, hl⟩ := parse_error_markedSpan he
  obtain ⟨hs, ht, _⟩ := hm "," rfl
  exact ⟨⟨_, hc, rfl, hs, ht⟩, _, he, rfl, hl rfl⟩

end

end ArgTree
