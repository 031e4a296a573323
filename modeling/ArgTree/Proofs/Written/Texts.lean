import ArgTree.Proofs.Expression.Scalars
import ArgTree.Proofs.Parser.Parse
import ArgTree.Proofs.Written.WellFormed

namespace ArgTree

open Expression ArgTree.Parser Lookahead

namespace TokenSequence

theorem lexes_of_ofSource {text : String} (h : ofSource text = .ok s) :
    Lexes text.toList s.lexemes := by
  simp only [ofSource, ofGrammar] at h
  split at h
  case h_1 lexed hl =>
    cases h
    exact Lexes.iff_lex.mpr ⟨lexed, hl, rfl⟩
  case h_2 => contradiction

theorem exists_ofSource {text : String} (h : Lexes text.toList ts) :
    ∃ s, ofSource text = .ok s ∧ s.lexemes = ts := by
  have ⟨lexed, hl, ht⟩ := Lexes.iff_lex.mp h
  refine ⟨{ source := text, tokens := lexed.tokens, counters := lexed.counters }, ?_, ht⟩
  simp only [ofSource, ofGrammar, hl]

end TokenSequence

theorem exists_lexes_of_parse {text : String} (h : parse text o = .ok v) :
    ∃ ts, Lexes text.toList ts := by
  obtain ⟨s, hs, _⟩ := parse_eq_ok_iff_exists_ofSource.mp h
  exact ⟨_, TokenSequence.lexes_of_ofSource hs⟩

theorem parse_eq_ok_iff_of_lexes {text : String} (h : Lexes text.toList ts) : parse text o = .ok v ↔
    ∃ vs, ReadsLevel (nested o.maxDepth) .endOfText none (ts.drop o.start) vs [] ∧
      v = .ofTopLevel o.unwrapSingleton vs := by
  obtain ⟨s, hs, rfl⟩ := TokenSequence.exists_ofSource h
  simp only [parse, hs, bind, Except.bind]
  exact TokenSequence.parse_eq_ok_iff

-- A single item is a whole level.
theorem Parser.ReadsItem.level {inner : Inner} (h : ReadsItem inner (t :: ts) v us)
    (hu : skipWhitespace us = []) : ReadsLevel inner .endOfText none (t :: ts) [v] [] := by
  have ⟨hw, hm, hc, he⟩ := kind_ne_of_begins h.begins
  have hs := skipWhitespace_cons_of_ne hw ts
  have hp : skipPadding us = [] := by simp [skipPadding, hu, kind]
  refine ⟨by rwa [hs], by rwa [hs], ?_⟩
  rw [hs]
  refine .item (by simpa [Level.endsAt, Level.start] using he) rfl h ?_
  rw [hp]
  exact .ends rfl rfl

namespace Written

theorem kinds?_eq_some_iff :
    kinds? s = some ks ↔ ∃ ts, Lexes s.toList ts ∧ ts.map (·.kind) = ks := by
  simp only [Lexes.iff_lex, kinds?]
  cases grammar.lex s
  case error => simp [Except.toOption]
  case ok lexed =>
    constructor
    case mp =>
      intro h
      exact ⟨_, ⟨lexed, rfl, rfl⟩, by simpa [Except.toOption, Function.comp_def] using h⟩
    case mpr =>
      rintro ⟨_, ⟨_, h, rfl⟩, rfl⟩
      cases h
      simp [Except.toOption, Function.comp_def]

theorem isKey_of_lexes (h : Lexes t.text.toList [t]) (he : t.kind.isElement) : isKey t.text := by
  rw [isKey, kinds?_eq_some_iff.mpr ⟨_, h, rfl⟩]
  exact he

theorem isBare_of_lexes (h : Lexes t.text.toList [t]) (he : t.kind.isElement)
    (hn : t.kind ≠ .number) : isBare t.text := by
  rw [isBare, kinds?_eq_some_iff.mpr ⟨_, h, rfl⟩]
  cases hk : t.kind <;> simp_all [Kind.isElement]

theorem isEscapable_of_escaped (h : Lexes (Lexeme.textOf run).toList run) (hr : Escaped run) :
    isEscapable (Lexeme.textOf run) := by
  rw [isEscapable, kinds?_eq_some_iff.mpr ⟨_, h, rfl⟩]
  obtain ⟨es, t, rfl, he, ht⟩ := hr.eq_append
  simpa [ht] using he

theorem isVerbatim_of_balanced
    (h : Lexes (Lexeme.textOf (t :: region ++ [u])).toList (t :: region ++ [u]))
    (ht : t.kind = .lParen) (hb : Balanced .rParen region) (hu : u.kind = .rParen) :
    isVerbatim (Lexeme.textOf (t :: region ++ [u])) := by
  have hi : ReadsItem (nested 100) (t :: region ++ [u]) _ [] := .verbatim ht hb hu
  have hp : parse (Lexeme.textOf (t :: region ++ [u])) =
      .ok (.list [.str (Lexeme.textOf (t :: region ++ [u]))]) :=
    (parse_eq_ok_iff_of_lexes h).mpr ⟨[.str _], hi.level rfl, rfl⟩
  have ⟨_, htk⟩ := h.takes_of_mem (t := t) (by simp)
  have ⟨r, hr, hc⟩ := htk.language_text ht
  simp only [language, hr] at hc
  rw [isVerbatim, hp]
  simp [toList_textOf_cons, hc]

end Written

end ArgTree
