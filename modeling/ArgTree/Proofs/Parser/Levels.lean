import ArgTree.Proofs.Parser.Followed
import ArgTree.Proofs.Parser.Parse
import ArgTree.Proofs.Parser.Runs

namespace ArgTree

open ArgTree.Parser Lookahead

namespace TokenSequence

variable {s : TokenSequence} {pos next : Nat} {close : Close} {first : Option Value}

theorem length_lexemesFrom (s : TokenSequence) (pos : Nat) :
    (s.lexemesFrom pos).length = s.tokens.length - pos := by
  rw [lexemesFrom, List.length_drop, lexemes, List.length_map]

theorem lexemesFrom_eq_nil_iff : s.lexemesFrom pos = [] ↔ s.tokens.length ≤ pos := by
  rw [lexemesFrom, List.drop_eq_nil_iff, lexemes, List.length_map]

theorem lexemesFrom_succ (s : TokenSequence) (pos : Nat) :
    s.lexemesFrom (pos + 1) = (s.lexemesFrom pos).tail := by
  rw [lexemesFrom, lexemesFrom, List.tail_drop]

theorem lexemesFrom_positionOf (h : rest <:+ s.lexemesFrom pos) :
    s.lexemesFrom (s.positionOf pos rest) = rest := by
  rw [positionOf, lexemesFrom, ← List.drop_drop]
  exact (List.suffix_iff_eq_drop.mp h).symm

-- The position in front of a lexeme comes right before the one behind it.
theorem positionOf_cons (h : t :: rest <:+ s.lexemesFrom pos) :
    s.positionOf pos rest = s.positionOf pos (t :: rest) + 1 := by
  have hl := h.length_le
  simp only [positionOf, List.length_cons] at hl ⊢
  omega

theorem readLevel_eq_ok_iff : s.readLevel pos close first = .ok (next, vs) ↔
    ∃ rest, ReadsLevel (nested 100) close first (s.lexemesFrom pos) vs rest ∧
      s.positionOf pos rest = next := by
  simp only [← level_yields_iff, readLevel, levelOutcome, Bool.false_eq_true, ↓reduceIte]
  cases level (nested 100) close first (s.lexemesFrom pos)
  case error => simp [bind, Except.bind, Outcome.Yields]
  case ok l  => simp [bind, Except.bind, pure, Except.pure, Outcome.Yields, and_comm]

-- The place at the start of a level.
def levelStart (s : TokenSequence) (pos : Nat) (close : Close) (first : Option Value) : Place :=
  .items 100 (.start close) first.toList (Lookahead.skipWhitespace (s.lexemesFrom pos))

-- A level in the convention of commas has come to an item that it has no comma for.
def LacksComma (s : TokenSequence) (pos : Nat) (close : Close) (first : Option Value)
    (vs : List Value) (next : Nat) : Prop :=
  (s.kindAt next = .escape ∨ (s.kindAt next).isElement) ∧ ∃ l : Level, l.convention = .comma ∧
    Visits (s.levelStart pos close first) (.items 100 l vs.reverse (s.lexemesFrom next))

-- Where a level stops that has begun at `pos`.
def StopsAt (s : TokenSequence) (pos : Nat) (first : Option Value) (vs : List Value) (next : Nat) :
    Close → Prop
  | .bracket k => k.isClosing ∧ pos + 1 ≤ next - 1 ∧ s.kindAt (next - 1) = k
  | .group c   => pos + 1 ≤ next ∧ (s.kindAt next = .endOfText ∨ (s.kindAt next).isClosing ∨
      c.oppositeDelimiter? = some (s.kindAt next) ∨
      c ≠ .whitespace ∧ s.LacksComma pos (.group c) first vs next)
  | .endOfText => s.kindAt next = .endOfText ∨ s.LacksComma pos .endOfText first vs next

theorem stopsAt_of_finishes (hs : rest <:+ s.lexemesFrom pos)
    (hu : Underway close first.toList (Lookahead.skipWhitespace (s.lexemesFrom pos)) l vs.reverse
      ts)
    (hv : Visits (s.levelStart pos close first) (.items 100 l vs.reverse ts))
    (hf : Finishes l ts rest)
    (hl : close ≠ .endOfText → ts.length < (Lookahead.skipWhitespace (s.lexemesFrom pos)).length) :
    s.StopsAt pos first vs (s.positionOf pos rest) close := by
  have hw := length_skipWhitespace_le (s.lexemesFrom pos)
  have hk {us} (h : us <:+ s.lexemesFrom pos) : s.kindAt (s.positionOf pos us) = kind us := by
    rw [kindAt, lexemesFrom_positionOf h]
  have hp {us} (h : us.length < (s.lexemesFrom pos).length) : pos + 1 ≤ s.positionOf pos us := by
    rw [positionOf]
    omega
  have hlacks (hts : ts = rest) (hc : l.convention = .comma)
      (ht : kind rest = .escape ∨ (kind rest).isElement) :
      s.LacksComma pos close first vs (s.positionOf pos rest) := by
    subst hts
    rw [LacksComma, hk hs, lexemesFrom_positionOf hs]
    exact ⟨ht, l, hc, hv⟩
  cases close with
  | bracket k =>
    cases hf with
    | ends he _      => exact absurd hu.close_eq (Level.not_bracket_of_endsAt he)
    | lacks _ _ _ hb => exact absurd hu.close_eq (hb k)
    | closes ht hc _ =>
      have hts := hu.suffix.trans (skipWhitespace_suffix _)
      have hc := Close.bracket.inj (hu.close_eq.symm.trans hc)
      rw [StopsAt, positionOf_cons hts, Nat.add_sub_cancel, hk hts]
      exact ⟨hc ▸ ht, hp (Nat.lt_of_lt_of_le (hl (by simp)) hw), hc.symm⟩
  | group c =>
    cases hf with
    | closes _ hc _ => cases hu.close_eq.symm.trans hc
    | ends he _     =>
      refine ⟨hp (Nat.lt_of_lt_of_le (hl (by simp)) hw), ?_⟩
      simp only [Level.endsAt, Level.groupEndsAt, hu.close_eq, Bool.or_eq_true,
        decide_eq_true_eq] at he
      rw [hk hs]
      exact he.imp_right (·.imp_right .inl)
    | lacks _ hc ht _ =>
      refine ⟨hp (Nat.lt_of_lt_of_le (hl (by simp)) hw), .inr (.inr (.inr ⟨?_, hlacks rfl hc ht⟩))⟩
      rintro rfl
      cases (hu.convention_eq (by decide)).symm.trans hc
  | endOfText =>
    cases hf with
    | closes _ hc _   => cases hu.close_eq.symm.trans hc
    | ends he _       => exact .inl (by simpa [hk hs, Level.endsAt, hu.close_eq] using he)
    | lacks _ hc ht _ => exact .inr (hlacks rfl hc ht)

-- What a level that was read guarantees: it has stopped where it may, the item that it was given is
-- its first one, and if it is inside another level it has read an item of its own.
theorem readLevel_guarantees (h : s.readLevel pos close first = .ok (next, vs)) :
    pos ≤ next ∧ next ≤ max pos s.tokens.length ∧ (∀ v, first = some v → vs.head? = some v) ∧
      s.StopsAt pos first vs next close ∧
      (close ≠ .endOfText → first.toList.length + 1 ≤ vs.length) := by
  obtain ⟨rest, hr, rfl⟩ := readLevel_eq_ok_iff.mp h
  obtain ⟨l, ts, hv, hf⟩ := hr.items.visits
  have hu := Underway.visits hv
  have hnew := hu.new_of_finishes hf fun _ _ => hr.not_closing
  have hn := s.length_lexemesFrom pos
  refine ⟨Nat.le_add_right .., ?_, fun v hv => ?_, ?_, fun he => ?_⟩
  case refine_1 =>
    rw [positionOf]
    omega
  case refine_2 =>
    obtain ⟨new, hi, _⟩ := hu.read
    rw [List.reverse_eq_iff.mp hi, hv]
    simp
  case refine_3 =>
    exact stopsAt_of_finishes (hr.suffix (nested_leavesSuffix 100)) hu hv hf (hnew · |>.left)
  case refine_4 => simpa using (hnew he).right

-- The group of commas that `b` begins stops in front of whitespace.
theorem readLevel_guarantees_group : ∃ s, ofSource "a b,c d" = .ok s ∧
    s.readLevel 4 (.group .comma) (some (.str "b")) = .ok (5, [.str "b", .str "c"]) ∧
    s.StopsAt 4 (some (.str "b")) [.str "b", .str "c"] 5 (.group .comma) := by
  have hr : (ofSource "a b,c d").bind (·.readLevel 4 (.group .comma) (some (.str "b"))) =
      .ok (5, [.str "b", .str "c"]) := by cbv
  cases hs : ofSource "a b,c d" <;> simp only [hs, Except.bind] at hr
  case error => contradiction
  case ok s  => exact ⟨s, rfl, hr, (readLevel_guarantees hr).right.right.right.left⟩

-- The places that the parse of a sequence comes to.
def ComesTo (s : TokenSequence) (o : ParseOptions) (p : Place) : Prop :=
  Visits (.top o.maxDepth (s.lexemesFrom o.start)) p

theorem ComesTo.consistent (h : s.ComesTo o p) : p.Consistent :=
  Visits.consistent h ⟨nofun, nofun, nofun⟩

-- What holds each time the loop of a level comes round, wherever the level is.
theorem level_of_comesTo (h : s.ComesTo o (.items d l last ts)) :
    ¬(l.haveItem ∧ l.haveDelimiter) ∧ (l.haveItem → last ≠ []) ∧
      (∀ l' last' ts', Visits (.items d l last ts) (.items d l' last' ts') →
        l.convention ≠ .undetermined → l'.convention = l.convention) ∧
      ∀ t us c l', ts = t :: us → l.endsAt t.kind = false →
        l.delimiter t.kind = .ok (.regroup c, l') →
          (∃ v, last.head? = some v) ∧ (∀ c', l.close ≠ .group c') ∧
            ∀ group ws, (nested d (.group c last.head?) t us).Yields group ws →
              ∃ vs, group = .list vs ∧ 2 ≤ vs.length := by
  have hp := h.consistent
  refine ⟨hp.left, hp.right.left, fun l' last' ts' hv hc => ?_, ?_⟩
  case refine_1 =>
    refine hv.keeps (P := fun l' _ _ => l'.convention = l.convention) ?_ ?_ ?_ rfl
    · exact fun h _ hd => (Level.convention_eq_of_delimiter hd (h ▸ hc)).trans h
    · exact fun h _ hd _ => (Level.convention_eq_of_delimiter hd (h ▸ hc)).trans h
    · exact fun h _ hi _ => (Level.convention_eq_of_item hi (h ▸ hc)).trans h
  case refine_2 =>
    rintro t us c l' rfl he hd
    have hn := hp.right.left (Level.haveItem_of_regroup hd)
    obtain ⟨v, last, rfl⟩ := List.exists_cons_of_ne_nil hn
    refine ⟨⟨v, rfl⟩, fun _ => hp.not_group he hd, fun group ws hg => ?_⟩
    obtain ⟨_, rfl, hr⟩ := nested_yields_iff.mp hg
    cases hr with
    | group hr =>
      obtain ⟨l, ts, hv, hf⟩ := hr.items.visits
      have hn := (Underway.visits hv).new_of_finishes hf nofun nofun
      exact ⟨_, rfl, Nat.succ_le_of_lt (by simpa using hn.right)⟩

-- The comma finds the level in the convention of whitespace, so that `b` begins a group.
theorem level_of_comesTo_group : ∃ s, ofSource "a b,c" = .ok s ∧ ∃ l last t us,
    s.ComesTo {} (.items 100 l last (t :: us)) ∧ l.endsAt t.kind = false ∧
    l.delimiter t.kind = .ok (.regroup .comma, l) ∧ last.head? = some (.str "b") ∧
    (∀ c, l.close ≠ .group c) ∧ ∀ group ws,
      (nested 100 (.group .comma last.head?) t us).Yields group ws →
        ∃ vs, group = .list vs ∧ 2 ≤ vs.length := by
  have hl : (ofSource "a b,c").map (·.lexemes) = .ok
      [⟨.word, .str "a", "a"⟩, ⟨.whitespace, .str " ", " "⟩, ⟨.word, .str "b", "b"⟩,
        ⟨.comma, .str ",", ","⟩, ⟨.word, .str "c", "c"⟩] := by cbv
  cases hs : ofSource "a b,c" <;> simp only [hs, Except.map] at hl
  case error => contradiction
  case ok s  =>
    have hv : s.ComesTo {} (.items 100 (.begun .endOfText .whitespace) [.str "b", .str "a"]
        [⟨.comma, .str ",", ","⟩, ⟨.word, .str "c", "c"⟩]) := by
      rw [ComesTo, lexemesFrom, Except.ok.inj hl]
      refine .head (.item rfl rfl (.element rfl rfl)) ?_
      refine .head (.delimiter rfl rfl (.inl rfl)) ?_
      exact .head (.item rfl rfl (.element rfl rfl)) .refl
    obtain ⟨_, hc, hg⟩ := (level_of_comesTo hv).right.right.right _ _ .comma _ rfl rfl rfl
    exact ⟨s, rfl, _, _, _, _, hv, rfl, rfl, rfl, hc, hg⟩

end TokenSequence

end ArgTree
