import ArgTree.Proofs.Expression.Matches
import ArgTree.Proofs.Number.Texts
import ArgTree.Proofs.Written.Texts

namespace ArgTree

namespace Expression

theorem lexes_of_firstMatch {t : Lexeme}
    (h : grammar.FirstMatch t.text.toList r t.text.toList.length) (hr : r.refusal = none)
    (hk : r.kind = t.kind) (hv : r.convert t.text = .ok t.value) : Lexes t.text.toList [t] := by
  have ht : Takes t [] := by
    refine ⟨r, ?_, hr, hk, hv⟩
    rw [List.append_nil]
    exact Grammar.match?_eq_some_iff.mpr h
  simpa using Lexes.cons ht .nil

-- A text is one lexeme if a rule matches all of it and no rule before matches any front of it.
theorem lexes_of_first {t : Lexeme} (he : grammar.allRules = before ++ r :: later)
    (hb : ∀ q ∈ before, ∀ u, language q u → ¬u <+: t.text.toList) (hl : language r t.text.toList)
    (hr : r.refusal = none) (hk : r.kind = t.kind) (hv : r.convert t.text = .ok t.value) :
    Lexes t.text.toList [t] :=
  lexes_of_firstMatch (firstMatch_of_maximal he hb List.prefix_rfl hl fun _ hu _ => hu.length_le)
    hr hk hv

theorem lexes_of_isFloat {text : String} (h : IsFloat text.toList)
    (hv : FloatNumeral.float? text.toList = .ok f) :
    Lexes text.toList [⟨.number, .float f, text⟩] := by
  obtain ⟨n, hf, hle⟩ := exists_firstMatch_float List.prefix_rfl h
  obtain rfl := Nat.le_antisymm hle hf.length_le
  refine lexes_of_firstMatch (t := ⟨.number, .float f, text⟩) hf rfl rfl ?_
  show Conversion.apply text .float = _
  rw [Conversion.apply, hv]
  rfl

theorem lexes_of_isInteger {text : String} (h : IsInteger text.toList)
    (hv : Numeral.integer? text.toList = .ok n) :
    Lexes text.toList [⟨.number, .int n, text⟩] := by
  have hp : ∀ u, u <+: text.toList → ¬IsFloat u := by
    rintro _ hu ⟨_, _, _, rfl, _⟩
    exact not_point_of_isInteger h (hu.mem (by simp))
  obtain ⟨m, hf, hle⟩ := exists_firstMatch_integer List.prefix_rfl h hp
  obtain rfl := Nat.le_antisymm hle hf.length_le
  refine lexes_of_firstMatch (t := ⟨.number, .int n, text⟩) hf rfl rfl ?_
  show Conversion.apply text .integer = _
  rw [Conversion.apply, hv]
  rfl

theorem lexes_of_isQuote {text : String} (h : IsQuote text.toList) :
    Lexes text.toList [⟨.quote, .str text, text⟩] := by
  obtain ⟨n, hf, hle⟩ := exists_firstMatch_quote List.prefix_rfl h
  obtain rfl := Nat.le_antisymm hle hf.length_le
  exact lexes_of_firstMatch (t := ⟨.quote, .str text, text⟩) hf rfl rfl rfl

-- The tokens that expressions are written with beside keys and scalars, and the names of the floats
-- that are no numbers.
def marks : List (Kind × String) :=
  [(.escape, "\\"), (.lParen, "("), (.rParen, ")"), (.lCurly, "\x7b"), (.rCurly, "\x7d"),
   (.lSquare, "["), (.rSquare, "]"), (.comma, ","), (.whitespace, " "), (.equals, "="),
   (.word, "inf"), (.word, "-inf"), (.word, "NaN")]

theorem lexes_mark (h : (k, s) ∈ marks) : Lexes s.toList [⟨k, .str s, s⟩] := by
  have hm : ∀ m ∈ marks, (grammar.lex m.2).map (fun lexed => lexed.tokens.map (·.toLexeme)) =
      .ok [⟨m.1, .str m.2, m.2⟩] := by decide +kernel
  exact Lexes.of_map_lex (hm _ h)

-- No token could hold something of both tokens.
def StandApart (k l : Kind) : Prop :=
  ¬(isRun k ∧ isRun l) ∧ ¬(k = .whitespace ∧ l = .whitespace)

theorem StandApart.of_left (hk : isRun k = false) (hw : k ≠ .whitespace) (l : Kind) :
    StandApart k l := by
  simp [StandApart, hk, hw]

theorem StandApart.of_right (hk : isRun l = false) (hw : l ≠ .whitespace) (k : Kind) :
    StandApart k l := by
  simp [StandApart, hk, hw]

namespace Lexes

theorem exists_head (h : Lexes cs ts) (hc : c ∈ cs.head?) :
    ∃ t ∈ ts.head?, ∃ r : Rule,
      r.kind = t.kind ∧ language r t.text.toList ∧ c ∈ t.text.toList.head? := by
  cases h
  case nil => contradiction
  case cons t cs ts ht _ =>
    have ⟨r, hk, hl⟩ := ht.language_text rfl
    refine ⟨t, rfl, r, hk, hl, ?_⟩
    have ⟨d, ds, hd⟩ := List.exists_cons_of_ne_nil (ne_nil_of_takes ht)
    rw [hd] at hc ⊢
    exact hc

theorem exists_getLast (h : Lexes cs ts) (hc : c ∈ cs.getLast?) : ∃ t ∈ ts.getLast?,
    ∃ r : Rule, r.kind = t.kind ∧ language r t.text.toList ∧ c ∈ t.text.toList.getLast? := by
  induction h
  case nil => contradiction
  case cons t cs ts ht hts hi =>
    cases hts
    case nil =>
      have ⟨r, hk, hl⟩ := ht.language_text rfl
      exact ⟨t, rfl, r, hk, hl, by simpa using hc⟩
    case cons u cs ts hu _ =>
      have hn : u.text.toList ++ cs ≠ [] := by simp [ne_nil_of_takes hu]
      rw [List.getLast?_append_of_ne_nil _ hn] at hc
      have ⟨v, hv, h⟩ := hi hc
      exact ⟨v, by rwa [List.getLast?_cons_cons], h⟩

theorem not_whitespace_of_getLast (h : Lexes cs ts) (hc : c ∈ cs.getLast?)
    (hn : Text.isWhiteSpace c = false) : ∀ t ∈ ts.getLast?, t.kind ≠ .whitespace := by
  intro t ht hk
  have ⟨u, hu, r, hr, hl, hcu⟩ := h.exists_getLast hc
  obtain rfl := Option.mem_unique ht hu
  simp only [language, hr.trans hk] at hl
  exact Bool.false_ne_true (hn.symm.trans (hl.right c (List.mem_of_mem_getLast? hcu)))

theorem apart_of_standApart (h : Lexes as ts) (h' : Lexes bs us)
    (hk : ∀ t ∈ ts.getLast?, ∀ u ∈ us.head?, StandApart t.kind u.kind) : Apart as bs := by
  intro x hx y hy
  have ⟨t, ht, r, hr, hl, hx⟩ := h.exists_getLast hx
  have ⟨u, hu, q, hq, hl', hy⟩ := h'.exists_head hy
  have ⟨hp, hw⟩ := language_edge hl (.inr hx)
  have ⟨hp', hw'⟩ := language_edge hl' (.inl hy)
  have ⟨hn, hn'⟩ := hk t ht u hu
  exact ⟨fun h => hn ⟨hr ▸ hp h.left, hq ▸ hp' h.right⟩,
    fun h => hn' ⟨hr ▸ hw h.left, hq ▸ hw' h.right⟩⟩

-- Whatever text follows a token that is no run and no white space stands apart from it.
theorem apart_of_getLast (h : Lexes as ts)
    (hk : ∀ t ∈ ts.getLast?, isRun t.kind = false ∧ t.kind ≠ .whitespace) (bs : List Char) :
    Apart as bs := by
  intro x hx y _
  have ⟨t, ht, r, hr, hl, hx⟩ := h.exists_getLast hx
  have ⟨hp, hw⟩ := language_edge hl (.inr hx)
  have ⟨hn, hn'⟩ := hk t ht
  exact ⟨fun h => Bool.eq_false_iff.mp hn (hr ▸ hp h.left), fun h => hn' (hr ▸ hw h.left)⟩

-- Texts whose tokens stand apart are cut into the tokens of both.
theorem append_of_standApart (h : Lexes as ts) (h' : Lexes bs us)
    (hk : ∀ t ∈ ts.getLast?, ∀ u ∈ us.head?, StandApart t.kind u.kind) :
    Lexes (as ++ bs) (ts ++ us) :=
  h.append h' (h.apart_of_standApart h' hk)

theorem cons_of_standApart (h : Lexes as [t]) (h' : Lexes bs us)
    (hk : ∀ u ∈ us.head?, StandApart t.kind u.kind) : Lexes (as ++ bs) (t :: us) :=
  h.append_of_standApart h' fun v hv => by
    obtain rfl : t = v := by simpa using hv
    exact hk

end Lexes

end Expression

end ArgTree
