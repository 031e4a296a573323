import ArgTree.Proofs.Parser.Starts
import ArgTree.Proofs.Written.Lexemes

namespace ArgTree

namespace Tile

def toLexeme (t : Tile) : Lexeme where
  kind  := t.rule.kind
  value := t.value
  text  := t.text

theorem tokens_add (start n : Nat) (ts : List Tile) :
    tokens (start + n) ts = (tokens start ts).map (Token.moved n) := by
  induction ts generalizing start
  case nil          => rfl
  case cons t ts hi =>
    have hs : start + n + t.text.length = start + t.text.length + n := Nat.add_right_comm ..
    simp only [tokens, hs, hi]
    split
    case isTrue  => rfl
    case isFalse => simp [Token.moved]

-- What tiles do to the counters adds up.
theorem getD_get?_foldl_append (ts us : List Tile) (key : String) :
    (((ts ++ us).foldl bump {}).get? key).getD 0 =
      ((ts.foldl bump {}).get? key).getD 0 + ((us.foldl bump {}).get? key).getD 0 := by
  have he : Counters.get? {} key = none := rfl
  simp only [getD_get?_foldl, List.countP_append, he, Option.getD_none]
  push_cast
  omega

theorem isSome_get?_foldl_append (ts us : List Tile) (key : String) :
    (((ts ++ us).foldl bump {}).get? key).isSome =
      (((ts.foldl bump {}).get? key).isSome || ((us.foldl bump {}).get? key).isSome) := by
  have he : Counters.get? {} key = none := rfl
  simp only [isSome_get?_foldl, List.any_append, he, Option.isSome_none, Bool.or_false]

end Tile

namespace Grammar

theorem Cuts.of_match? {g : Grammar} (h : g.Cuts t cs ds)
    (hm : g.match? (t.text.toList ++ es) = g.match? cs) : g.Cuts t (t.text.toList ++ es) es where
  splits   := rfl
  nonempty := h.nonempty
  first    := match?_eq_some_iff.mp (hm.trans (match?_eq_some_iff.mpr h.first))
  accepts  := h.accepts
  converts := h.converts

theorem Tiles.width_eq {g : Grammar} (h : g.Tiles cs ts []) : cs.length = Tile.width ts := by
  obtain ⟨before, rfl, hl⟩ := h.splits
  rw [List.append_nil, hl]

end Grammar

namespace Expression

theorem takes_of_cuts (h : grammar.Cuts t cs ds) : Takes t.toLexeme ds := by
  refine ⟨t.rule, ?_, h.accepts, rfl, h.converts⟩
  have hm := Grammar.match?_eq_some_iff.mpr h.first
  rwa [h.splits, ← String.length_toList] at hm

-- Tiles are cut off again if the text behind them is cut short.
theorem tiles_of_isPrefix (h : grammar.Tiles (before ++ rest) ts rest) (hp : ds <+: rest) :
    grammar.Tiles (before ++ ds) ts ds := by
  generalize hc : before ++ rest = cs at h
  induction h generalizing before
  case nil =>
    obtain rfl : before = [] := by simpa using hc
    exact .nil
  case cons t _ _ ts rest hcut hts hi =>
    obtain ⟨before', rfl, _⟩ := hts.splits
    rw [hcut.splits, ← List.append_assoc] at hc
    obtain rfl := List.append_cancel_right hc
    have hm := Grammar.match?_eq_some_iff.mpr hcut.first
    have hp' : t.text.toList ++ (before' ++ ds) <+: t.text.toList ++ (before' ++ rest) := by
      simpa using hp
    rw [List.append_assoc]
    refine .cons (hcut.of_match? ?_) (hi hp rfl)
    rw [hm]
    exact match?_of_isPrefix hp' (by simp [← String.length_toList]) (hcut.splits ▸ hm)

-- They are cut off again if more text follows that stands apart.
theorem tiles_append_of_apart (h : grammar.Tiles as ts []) (ha : Apart as bs) :
    grammar.Tiles (as ++ bs) ts bs := by
  generalize hn : [] = rest at h
  induction h
  case nil =>
    cases hn
    exact .nil
  case cons t _ ds _ _ hc _ hi =>
    obtain rfl := hc.splits
    have hm := match?_append_of_apart (takes_of_cuts hc) ha
    rw [List.append_assoc] at hm ⊢
    exact .cons (hc.of_match? hm) (hi ha.of_append hn)

theorem lexes_of_tiles {text : String} (h : grammar.Tiles text.toList ts []) :
    Lexes text.toList ((Tile.tokens 0 ts).map (·.toLexeme)) :=
  Lexes.iff_lex.mpr ⟨_, Grammar.lex_of_tiles h, rfl⟩

theorem tiles_append {a b : String} (h : grammar.Tiles a.toList ts [])
    (h' : grammar.Tiles b.toList us rest) (ha : Apart a.toList b.toList) :
    grammar.Tiles (a ++ b).toList (ts ++ us) rest := by
  rw [String.toList_append]
  exact (tiles_append_of_apart h ha).append h'

-- Any row of the tokens of a text is cut from its own text again, at the places that it has there.
theorem lex_extract {text : String} (h : grammar.lex text = .ok lexed) (i j : Nat) :
    ∃ cut, grammar.lex (Lexeme.textOf ((lexed.tokens.extract i j).map (·.toLexeme))) = .ok cut ∧
      cut.tokens.map (·.toLexeme) = (lexed.tokens.extract i j).map (·.toLexeme) ∧
      ∀ t, lexed.tokens[i]? = some t →
        lexed.tokens.extract i j = cut.tokens.map (Token.moved t.span.start) := by
  have hi : (lexed.tokens.extract i j).map (·.toLexeme) <:+: lexed.tokens.map (·.toLexeme) :=
    ((List.take_prefix ..).isInfix.trans (List.drop_suffix ..).isInfix).map _
  obtain ⟨cut, hc, he⟩ := Lexes.iff_lex.mp (Lexes.of_isInfix (Lexes.iff_lex.mpr ⟨lexed, h, rfl⟩) hi)
  refine ⟨cut, hc, he, fun t ht => ?_⟩
  have hd := (TokenSequence.sideBySide_of_lex h).drop i
  obtain ⟨hl, rfl⟩ := List.getElem?_eq_some_iff.mp ht
  have hs := hd
  rw [List.drop_eq_getElem_cons hl] at hs
  refine Token.SideBySide.eq_map_moved ?_ (TokenSequence.sideBySide_of_lex hc) he.symm
  simpa [hs.right.left] using hd.take (j - i)

-- The quoted text and the bracket behind it begin at the third character.
theorem lex_extract_quote : ∃ lexed cut, grammar.lex "ä \"b\"(1" = .ok lexed ∧
    grammar.lex "\"b\"(" = .ok cut ∧
    lexed.tokens.extract 2 4 = cut.tokens.map (Token.moved 2) := by
  have hl : grammar.lex "ä \"b\"(1" = .ok
      { tokens :=
          [⟨⟨.word, .str "ä", "ä"⟩, ⟨0, 1⟩⟩, ⟨⟨.whitespace, .str " ", " "⟩, ⟨1, 2⟩⟩,
           ⟨⟨.quote, .str "\"b\"", "\"b\""⟩, ⟨2, 5⟩⟩, ⟨⟨.lParen, .str "(", "("⟩, ⟨5, 6⟩⟩,
           ⟨⟨.number, .int 1, "1"⟩, ⟨6, 7⟩⟩]
        counters := ⟨[("paren", 1)]⟩ } := by cbv
  obtain ⟨cut, hc, _, hm⟩ := lex_extract hl 2 4
  exact ⟨_, cut, hl, hc, hm _ rfl⟩

-- The tokens of two texts are those of both together, unless the last one of the first text and the
-- first one of the second could be parts of the same token. A failure in the second text stays the
-- same behind a token that always stands apart.
theorem lex_append {a b : String} (ha : grammar.lex a = .ok la) :
    (∀ lb, grammar.lex b = .ok lb →
      (∀ t ∈ la.tokens.getLast?, ∀ u ∈ lb.tokens.head?, StandApart t.kind u.kind) →
      ∃ l, grammar.lex (a ++ b) = .ok l ∧
        l.tokens = la.tokens ++ lb.tokens.map (Token.moved a.length) ∧
        ∀ key, (l.counters.get? key).getD 0 =
            (la.counters.get? key).getD 0 + (lb.counters.get? key).getD 0 ∧
          (l.counters.get? key).isSome =
            ((la.counters.get? key).isSome || (lb.counters.get? key).isSome)) ∧
    ∀ t ∈ la.tokens.getLast?, isRun t.kind = false → t.kind ≠ .whitespace →
      ∀ e, grammar.lex b = .error e →
        grammar.lex (a ++ b) = .error { e with offset := e.offset + a.length } := by
  obtain ⟨ts, hts, rfl⟩ := Grammar.exists_tiles_of_lex ha
  have hla := lexes_of_tiles hts
  have hw : Tile.width ts = a.length := by rw [← hts.width_eq, String.length_toList]
  refine ⟨fun lb hb hk => ?_, fun t ht hr hn e hb => ?_⟩
  case refine_1 =>
    obtain ⟨us, hus, rfl⟩ := Grammar.exists_tiles_of_lex hb
    have hap : Apart a.toList b.toList :=
      hla.apart_of_standApart (lexes_of_tiles hus) (by simpa using hk)
    refine ⟨_, Grammar.lex_of_tiles (tiles_append hts hus hap), ?_, fun key => ⟨?_, ?_⟩⟩
    case refine_1 => rw [Tile.tokens_append, Tile.tokens_add, hw]
    case refine_2 => exact Tile.getD_get?_foldl_append ts us key
    case refine_3 => exact Tile.isSome_get?_foldl_append ts us key
  case refine_2 =>
    obtain ⟨us, rest, hus, hrej, ho⟩ := Grammar.exists_rejects_of_lex hb
    have hap : Apart a.toList b.toList := by
      refine hla.apart_of_getLast ?_ _
      rw [List.getLast?_map, ht]
      simpa using ⟨hr, hn⟩
    rw [Grammar.lex_of_rejects (tiles_append hts hus hap) hrej, Tile.width_append, hw, ho,
      Nat.add_comm]

-- The bracket that the first text opens is closed by the second one. A quote without a partner is
-- where the bracket has moved it.
theorem lex_append_paren : ∃ la lb l, grammar.lex "f(" = .ok la ∧ grammar.lex "x)" = .ok lb ∧
    grammar.lex "f(x)" = .ok l ∧ l.tokens = la.tokens ++ lb.tokens.map (Token.moved 2) ∧
    (l.counters.get? "paren").getD 0 = 0 ∧
    grammar.lex "f(x\"" = .error
      { cause := .refused "Unmatched quote", text := "\"", offset := 3 } := by
  have ha : grammar.lex "f(" = .ok
      { tokens := [⟨⟨.word, .str "f", "f"⟩, ⟨0, 1⟩⟩, ⟨⟨.lParen, .str "(", "("⟩, ⟨1, 2⟩⟩]
        counters := ⟨[("paren", 1)]⟩ } := by cbv
  have hb : grammar.lex "x)" = .ok
      { tokens := [⟨⟨.word, .str "x", "x"⟩, ⟨0, 1⟩⟩, ⟨⟨.rParen, .str ")", ")"⟩, ⟨1, 2⟩⟩]
        counters := ⟨[("paren", -1)]⟩ } := by cbv
  have he : grammar.lex "x\"" = .error
      { cause := .refused "Unmatched quote", text := "\"", offset := 1 } := by cbv
  have hs : StandApart .lParen .word := .of_left (k := .lParen) rfl (by decide) _
  obtain ⟨l, hl, ht, hc⟩ := (lex_append ha).left _ hb (by simpa using hs)
  have hf := (lex_append ha).right _ rfl rfl (by decide) _ he
  exact ⟨_, _, l, ha, hb, hl, ht, (hc "paren").left, hf⟩

end Expression

end ArgTree
