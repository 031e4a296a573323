import ArgTree.Proofs.Lexing.Tiles
import ArgTree.Proofs.Parser.Faults
import ArgTree.Proofs.Parser.Parse
import ArgTree.Proofs.Written.Texts

namespace ArgTree

-- The error shows the text that stands at its offset in `whole`, and none exactly at the end.
structure ParseError.PointsInto (e : ParseError) (whole : String) : Prop where
  source    : e.source = whole
  retry     : e.retry = some true
  offset_le : e.offset ≤ whole.length
  atEnd     : e.character = none ↔ e.offset = whole.length
  shows     : ∀ text, e.character = some text →
                text ≠ "" ∧ text.toList <+: whole.toList.drop e.offset
  span      : e.span.start = e.offset ∧
                (whole.toList.drop e.span.start).take e.span.length = (e.character.getD "").toList

-- The error shows a token at its place.
def ParseError.PointsAt (e : ParseError) (t : Token) : Prop :=
  e.span = t.span ∧ e.character = some t.text

theorem ParseError.PointsInto.withCharacter {e : ParseError} {text whole : String}
    (hs : e.source = whole) (hr : e.retry = some true) (ho : e.offset = before.length)
    (ht : whole.toList = before ++ (text.toList ++ behind)) (hn : text = "" → behind = []) :
    (e.withCharacter text).PointsInto whole := by
  have hd : whole.toList.drop e.offset = text.toList ++ behind := by rw [ho, ht, List.drop_left]
  have hl : whole.length = e.offset + (text.length + behind.length) := by
    rw [← String.length_toList, ht, ho, List.length_append, List.length_append,
      String.length_toList]
  by_cases h : text = ""
  case pos =>
    subst h
    cases hn rfl
    constructor <;> simp_all [ParseError.withCharacter, ParseError.span, Span.length]
  case neg =>
    have hp : text.length ≠ 0 := by simpa using h
    have htake : (text.toList ++ behind).take text.length = text.toList :=
      (Lexer.take_length_of_eq_append rfl).left
    constructor <;> simp_all [ParseError.withCharacter, ParseError.span, Span.length]

namespace Grammar

variable {g : Grammar}

theorem Tiles.splits (h : g.Tiles cs ts rest) :
    ∃ before, cs = before ++ rest ∧ before.length = Tile.width ts := by
  induction h
  case nil => exact ⟨[], rfl, rfl⟩
  case cons t _ _ _ _ hc _ hi =>
    have ⟨before, hd, hl⟩ := hi
    refine ⟨t.text.toList ++ before, by rw [hc.splits, hd, List.append_assoc], ?_⟩
    simp [hl, String.length_toList]

theorem Rejects.splits (h : g.Rejects cs cause text) :
    text ≠ "" ∧ ∃ behind, cs = text.toList ++ behind := by
  have hn {text : String} {r} (h : g.FirstMatch cs r text.length) : text ≠ "" := by
    rintro rfl
    exact absurd h.pos (Nat.lt_irrefl 0)
  cases h with
  | @unexpected c cs     => exact ⟨by simp, cs, by simp⟩
  | refused he h _       => exact ⟨hn h, _, he⟩
  | conversion he h _ _  => exact ⟨hn h, _, he⟩

end Grammar

-- The tokens lie side by side from a place on, and none of them is empty.
def Token.SideBySide : Nat → List Token → Prop
  | _, []          => True
  | start, t :: ts =>
    t.text ≠ "" ∧ t.span = ⟨start, start + t.text.length⟩ ∧ SideBySide (start + t.text.length) ts

namespace Token

theorem SideBySide.of_tiles {g : Grammar} (h : g.Tiles cs ts rest)
    (hi : ∀ r ∈ g.allRules, r.ignored = false) (start : Nat) :
    SideBySide start (Tile.tokens start ts) := by
  induction h generalizing start
  case nil => trivial
  case cons t _ _ _ _ hc _ ih =>
    have hr := hi t.rule hc.rule_mem
    simp only [Tile.tokens, hr, Bool.false_eq_true, ↓reduceIte]
    exact ⟨hc.nonempty, rfl, ih _⟩

theorem SideBySide.split (h : SideBySide start (before ++ t :: behind)) :
    t.text ≠ "" ∧ t.span.start = start + (Lexeme.textOf (before.map (·.toLexeme))).length ∧
      t.span.stop = t.span.start + t.text.length := by
  induction before generalizing start
  case nil =>
    obtain ⟨hn, hs, _⟩ := h
    exact ⟨hn, by simp [hs, Lexeme.textOf], by simp [hs]⟩
  case cons u before hi =>
    obtain ⟨_, _, h⟩ := h
    obtain ⟨hn, hs, he⟩ := hi h
    refine ⟨hn, hs.trans ?_, he⟩
    simp [Lexeme.textOf, String.join_cons, Nat.add_assoc]

end Token

namespace Parser

-- A failure is in front of a rest of the lexemes.
theorem inherited_of_suffix : Inherited fun ts f => f.rest <:+ ts where
  passed hu h   := h.trans hu
  raised hu _   := hu

theorem nested_fault_suffix (d : Nat) :
    ∀ what opener ts, (nested d what opener ts).FailsOnly fun f => f.rest <:+ opener :: ts :=
  nested_fails (fun _ => inherited_of_suffix) (fun _ _ => List.suffix_rfl)
    (fun _ _ _ _ h => h.trans (List.suffix_cons ..)) d

end Parser

namespace TokenSequence

open ArgTree.Parser

variable {s : TokenSequence} {o : ParseOptions}

theorem fault_suffix (h : s.parseOutcome o = .error f) : f.rest <:+ s.lexemes := by
  have hd : s.lexemesFrom o.start <:+ s.lexemes := List.drop_suffix ..
  rcases parseOutcome_eq_error_iff.mp h with h | ⟨top, ht, _, rfl⟩
  case inl =>
    have hl := level_fails inherited_of_suffix (nested_leavesSuffix o.maxDepth)
      (nested_fault_suffix o.maxDepth) .endOfText none (s.lexemesFrom o.start)
    exact (hl _ h).trans hd
  case inr =>
    have hl := level_yields_iff.mp ⟨top, ht, rfl, rfl⟩
    exact (hl.suffix (nested_leavesSuffix o.maxDepth)).trans hd

theorem text_of_ofSource {text : String} (h : ofSource text = .ok s) : s.text = text :=
  String.toList_injective (lexes_of_ofSource h).eq_toList_textOf.symm

theorem sideBySide_of_lex {text : String} (h : Expression.grammar.lex text = .ok lexed) :
    Token.SideBySide 0 lexed.tokens := by
  obtain ⟨ts, ht, rfl⟩ := Grammar.exists_tiles_of_lex h
  exact .of_tiles ht (fun _ => Expression.not_ignored_of_mem) 0

theorem sideBySide_of_ofSource {text : String} (h : ofSource text = .ok s) :
    Token.SideBySide 0 s.tokens := by
  simp only [ofSource, ofGrammar] at h
  split at h <;> cases h
  case h_1 hl => exact sideBySide_of_lex hl

theorem errorBefore_pointsInto (hs : Token.SideBySide 0 s.tokens) (h : rest <:+ s.lexemes)
    (kind : ErrorKind) (message : String) :
    (s.errorBefore rest kind message).PointsInto s.text ∧
      ((∃ t ∈ s.tokens, (s.errorBefore rest kind message).PointsAt t) ∨
        (s.errorBefore rest kind message).offset = s.text.length) := by
  obtain ⟨before, he⟩ := h
  have ht : s.text.toList = (Lexeme.textOf before).toList ++ (Lexeme.textOf rest).toList := by
    rw [text, ← he, Expression.toList_textOf_append]
  have ho : s.text.length - (Lexeme.textOf rest).length = (Lexeme.textOf before).toList.length := by
    rw [← String.length_toList, ht, List.length_append, String.length_toList, String.length_toList]
    omega
  cases rest
  case nil =>
    have ht : s.text.toList = (Lexeme.textOf before).toList ++ ("".toList ++ []) := by
      simpa [Lexeme.textOf] using ht
    refine ⟨.withCharacter rfl rfl ho ht fun _ => rfl, .inr ?_⟩
    simp [errorBefore, ParseError.withCharacter, Lexeme.textOf]
  case cons t us =>
    obtain ⟨front, back, hk, rfl, hb⟩ := List.map_eq_append_iff.mp he.symm
    obtain ⟨u, back, rfl, rfl, rfl⟩ := List.map_eq_cons_iff.mp hb
    obtain ⟨hn, hb, hp⟩ := (hk ▸ hs).split
    rw [Expression.toList_textOf_cons] at ht
    refine ⟨.withCharacter rfl rfl ho ht fun h => absurd h hn, .inl ⟨u, by simp [hk], ?_, ?_⟩⟩
    case refine_1 =>
      rw [String.length_toList] at ho
      have hu : u.span = ⟨u.span.start, u.span.start + u.text.length⟩ := hp ▸ rfl
      rw [hu, hb, Nat.zero_add]
      simp [ParseError.span, errorBefore, ParseError.withCharacter, hn, ho]
    case refine_2 => exact if_neg hn

end TokenSequence

-- Every failure shows what stands at its place in the text. Behind the lexer that is a token or the
-- end.
theorem parse_error_pointsInto {text : String} (h : parse text o = .error e) :
    e.PointsInto text ∧ ∀ s, TokenSequence.ofSource text = .ok s →
      (∃ t ∈ s.tokens, e.PointsAt t) ∨ e.offset = text.length := by
  cases hs : TokenSequence.ofSource text
  case ok s =>
    simp only [parse, hs] at h
    obtain ⟨f, hf, rfl⟩ := TokenSequence.parse_eq_error_iff.mp h
    have hl := TokenSequence.sideBySide_of_ofSource hs
    obtain ⟨hp, hm⟩ := TokenSequence.errorBefore_pointsInto hl (TokenSequence.fault_suffix hf)
      f.cause.kind f.cause.message
    rw [TokenSequence.text_of_ofSource hs] at hp hm
    exact ⟨hp, fun _ h => Except.ok.inj h ▸ hm⟩
  case error e' =>
    simp only [parse, hs] at h
    cases h
    refine ⟨?_, fun _ h => by cases h⟩
    obtain ⟨ts, rest, ht, hr⟩ := Grammar.exists_tiles Expression.grammar text.toList
    simp only [TokenSequence.ofSource, TokenSequence.ofGrammar] at hs
    rcases hr with rfl | ⟨_, _, hr⟩
    case inl =>
      rw [Grammar.lex_of_tiles ht] at hs
      cases hs
    case inr =>
      rw [Grammar.lex_of_rejects ht hr] at hs
      cases hs
      obtain ⟨before, hb, hl⟩ := ht.splits
      obtain ⟨hn, behind, he⟩ := hr.splits
      exact .withCharacter rfl rfl hl.symm (he ▸ hb) fun h => absurd h hn

-- Places are counted in characters.
theorem parse_error_pointsInto_comma : ∃ e, parse "ä,,b" = .error e ∧ e.span = ⟨2, 3⟩ ∧
    e.PointsInto "ä,,b" ∧
    ∃ s, TokenSequence.ofSource "ä,,b" = .ok s ∧ ∃ t ∈ s.tokens, e.PointsAt t := by
  have he : parse "ä,,b" = .error
      { kind := .itemExpected, character := some ",", source := "ä,,b", offset := 2,
        retry := some true } := by cbv
  have hk : (TokenSequence.ofSource "ä,,b").isOk := by cbv
  obtain ⟨hp, hm⟩ := parse_error_pointsInto he
  cases hs : TokenSequence.ofSource "ä,,b"
  case error => simp [hs, Except.isOk, Except.toBool] at hk
  case ok s  =>
    have hn : ¬2 = "ä,,b".length := by decide
    exact ⟨_, he, rfl, hp, s, rfl, (hm s hs).resolve_right hn⟩

end ArgTree
