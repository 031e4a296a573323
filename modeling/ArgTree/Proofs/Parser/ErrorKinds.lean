import ArgTree.Proofs.Parser.Failures
import ArgTree.Proofs.Parser.Locations

namespace ArgTree

open ArgTree.Parser Lookahead

namespace Parser

-- No level may be opened in front of a delimiter that would start a group.
inductive RefusesGroup : Place → List Lexeme → Prop
  | intro : l.endsAt t.kind = false → l.delimiter t.kind = .ok (.regroup c, l') →
            t.kind = .whitespace ∨ t.kind = .comma →
            RefusesGroup (.items 0 l last (t :: ts)) (t :: ts)

end Parser

-- The kind of a failure says what is there. A delimiter is missing only behind something that was
-- read, so not at the start.
structure Fault.Fits (f : Fault) (p : Place) : Prop where
  unexpectedEnd     : f.cause.kind = .unexpectedEnd → f.rest = []
  unexpectedClose   : f.cause.kind = .unexpectedClose → (kind f.rest).isClosing
  delimiterExpected : f.cause.kind = .delimiterExpected →
    (kind f.rest = .escape ∨ (kind f.rest).isElement) ∧ f.rest <:+ p.rest ∧ ∀ d ts, p ≠ .top d ts
  nestingTooDeep    : f.cause.kind = .nestingTooDeep →
    (kind f.rest).isOpening ∨ RefusesGroup p f.rest
  atEnd             : f.rest = [] → f.cause.kind = .unexpectedEnd ∨ f.cause.kind = .itemExpected

theorem Fault.IsCutShort.fits {f : Fault} (h : f.IsCutShort) : f.Fits p where
  unexpectedEnd _      := h.right
  unexpectedClose hk   := nomatch h.left.symm.trans hk
  delimiterExpected hk := nomatch h.left.symm.trans hk
  nestingTooDeep hk    := nomatch h.left.symm.trans hk
  atEnd _              := .inl h.left

theorem Parser.Raises.fits (h : Raises p f) : f.Fits p := by
  cases h with
  | @start ts close _ _ hk =>
    have hn : ts ≠ [] := by rintro rfl; rcases hk with hk | hk <;> cases hk
    split
    case isTrue  => exact ⟨nofun, nofun, nofun, nofun, fun _ => .inr rfl⟩
    case isFalse => exact ⟨nofun, nofun, nofun, nofun, fun h => absurd h hn⟩
  | escape _ _ _ h    => exact (escaped_cutShort _ _ h).fits
  | region _ _ _ h    => exact (verbatim_cutShort _ _ _ _ h).fits
  | close hk _ _      => exact ⟨nofun, fun _ => hk, nofun, nofun, nofun⟩
  | delimiter _ hd _  =>
    rcases Level.cause_of_delimiter hd with rfl | rfl <;>
      exact ⟨nofun, nofun, nofun, nofun, nofun⟩
  | lacks _ hl hk _   =>
    refine ⟨nofun, nofun, fun _ => ⟨hk, List.suffix_rfl, fun d ts hp => ?_⟩, nofun, nofun⟩
    obtain ⟨_, rfl, _⟩ := Place.items.inj hp
    exact absurd (Level.of_item_complete hl).left nofun
  | noComma hs hk     =>
    exact ⟨nofun, nofun, fun _ => ⟨.inr hk, hs ▸ skipWhitespace_suffix _, nofun⟩, nofun, nofun⟩
  | group he hd ht    => exact ⟨nofun, nofun, nofun, fun _ => .inr ⟨he, hd, ht⟩, nofun⟩
  | opening _ _ hb hs =>
    refine ⟨nofun, nofun, nofun, fun _ => .inl ?_, nofun⟩
    obtain ⟨_, hs', hk⟩ := hb.exists_opener
    have he := (List.suffix_of_suffix_length_le hs' hs (Nat.le_refl _)).eq_of_length rfl
    exact (List.cons.inj he).left ▸ hk
  | value _ hn _      =>
    refine ⟨nofun, nofun, nofun, fun _ => .inl ?_, nofun⟩
    obtain ⟨_, ho, hk⟩ := hn.exists_opener
    cases ho
    exact hk
  | unclosed | entries      => exact ⟨fun _ => rfl, nofun, nofun, nofun, fun _ => .inl rfl⟩
  | ends | closes | noEntry => exact ⟨nofun, nofun, nofun, nofun, fun _ => .inr rfl⟩
  | other | entry           => exact ⟨nofun, nofun, nofun, nofun, nofun⟩

namespace TokenSequence

variable {s : TokenSequence} {o : ParseOptions}

-- The parse fails with `e` at the position `p`. What fails at the end does so at each position that
-- is past the last token.
def RaisedAt (s : TokenSequence) (o : ParseOptions) (p : Nat) (e : ParseError) : Prop :=
  ∃ cause, s.parseOutcome o = .error ⟨cause, s.lexemesFrom p⟩ ∧
    e = s.errorAt p cause.kind cause.message

-- The parse comes to a delimiter that would start a group, where no level may be opened.
def RefusesGroup (s : TokenSequence) (o : ParseOptions) (p : Nat) : Prop :=
  ∃ q, s.ComesTo o q ∧ Parser.RefusesGroup q (s.lexemesFrom p)

-- The kind of an error says what is at the position.
structure NamesWhatIsAt (s : TokenSequence) (o : ParseOptions) (p : Nat) (e : ParseError) :
    Prop where
  unexpectedEnd     : e.kind = .unexpectedEnd ↔ s.tokens.length ≤ p ∧ e.kind ≠ .itemExpected
  unexpectedClose   : e.kind = .unexpectedClose → (s.kindAt p).isClosing
  delimiterExpected : e.kind = .delimiterExpected →
    (s.kindAt p = .escape ∨ (s.kindAt p).isElement) ∧ p ≠ o.start
  nestingTooDeep    : e.kind = .nestingTooDeep → (s.kindAt p).isOpening ∨ s.RefusesGroup o p
  notAtEnd          :
    e.kind ∈ [.invalidCharacter, .delimiterExpected, .unexpectedClose, .nestingTooDeep] →
      p < s.tokens.length

@[simp]
theorem kind_errorAt : (s.errorAt p k message).kind = k :=
  rfl

@[simp]
theorem kind_errorOf : (s.errorOf f).kind = f.cause.kind :=
  rfl

theorem exists_raisedAt (h : s.parse o = .error e) : ∃ p, s.RaisedAt o p e := by
  obtain ⟨f, hf, rfl⟩ := parse_eq_error_iff.mp h
  have hr : s.lexemesFrom (s.positionOf 0 f.rest) = f.rest :=
    lexemesFrom_positionOf (fault_suffix hf)
  exact ⟨_, f.cause, by rw [hr, hf], by rw [errorAt, hr, errorOf]⟩

theorem ComesTo.ne_start (hc : s.ComesTo o p) (hs : s.lexemesFrom q <:+ p.rest)
    (hn : ∀ d ts, p ≠ .top d ts) : q ≠ o.start := by
  rintro rfl
  have hl := (Visits.eq_or_length_lt hc).resolve_left (hn _ _).symm
  have hw := length_skipWhitespace_le (s.lexemesFrom o.start)
  exact absurd (Nat.lt_of_lt_of_le (Nat.lt_of_le_of_lt hs.length_le hl) hw) (Nat.lt_irrefl _)

-- Every error of a parse is raised at some position, and its kind fits what is at the position.
theorem namesWhatIsAt_of_parse {g : Grammar} {source : String} (hs : ofGrammar g source = .ok s)
    (o : ParseOptions) :
    (∀ e, s.parse o = .error e → ∃ p, s.RaisedAt o p e) ∧
      ∀ p e, s.RaisedAt o p e → s.NamesWhatIsAt o p e := by
  refine ⟨fun e => exists_raisedAt, ?_⟩
  rintro p _ ⟨cause, ho, rfl⟩
  obtain ⟨q, hq, hr⟩ := exists_raises (proper_of_ofGrammar hs) ho
  have hf := hr.fits
  have he (h : s.tokens.length ≤ p) : cause.kind = .unexpectedEnd ∨ cause.kind = .itemExpected :=
    hf.atEnd (lexemesFrom_eq_nil_iff.mpr h)
  constructor
  case unexpectedEnd     =>
    constructor
    case mp  =>
      intro hk
      exact ⟨lexemesFrom_eq_nil_iff.mp (hf.unexpectedEnd hk), fun hi => nomatch hk.symm.trans hi⟩
    case mpr => exact fun ⟨hp, hi⟩ => (he hp).resolve_right hi
  case unexpectedClose   => exact hf.unexpectedClose
  case delimiterExpected =>
    intro hk
    obtain ⟨hd, hs, hn⟩ := hf.delimiterExpected hk
    exact ⟨hd, hq.ne_start hs hn⟩
  case nestingTooDeep    => exact fun hk => (hf.nestingTooDeep hk).imp_right fun h => ⟨q, hq, h⟩
  case notAtEnd          =>
    intro hk
    refine Nat.lt_of_not_le fun hp => ?_
    rcases he hp with h | h <;> simp [h] at hk

-- The comma would start a group in a list, and only one level may be open.
theorem namesWhatIsAt_of_parse_group : ∃ s e, ofSource "[a b,c]" = .ok s ∧
    s.parse { maxDepth := 1 } = .error e ∧ e.kind = .nestingTooDeep ∧
    ∃ p, s.RaisedAt { maxDepth := 1 } p e ∧ p < s.tokens.length ∧ s.kindAt p = .comma ∧
      s.RefusesGroup { maxDepth := 1 } p := by
  have ho : (ofSource "[a b,c]").map (·.parseOutcome { maxDepth := 1 }) = .ok (.error
      ⟨.nestingTooDeep,
        [⟨.comma, .str ",", ","⟩, ⟨.word, .str "c", "c"⟩, ⟨.rSquare, .str "]", "]"⟩]⟩) := by cbv
  cases hs : ofSource "[a b,c]" <;> simp only [hs, Except.map] at ho
  case error => contradiction
  case ok s  =>
    obtain ⟨hr, hn⟩ := namesWhatIsAt_of_parse hs { maxDepth := 1 }
    have ho := Except.ok.inj ho
    have he := parse_eq_error_iff.mpr ⟨_, ho, rfl⟩
    obtain ⟨p, hr⟩ := hr _ he
    have hk : s.kindAt p = .comma := by
      obtain ⟨_, hp, _⟩ := hr
      obtain ⟨_, hl⟩ := Fault.mk.inj (Except.error.inj (ho.symm.trans hp))
      rw [kindAt, ← hl]
      rfl
    have hn := hn p _ hr
    refine ⟨s, _, rfl, he, rfl, p, hr, hn.notAtEnd (by simp [Cause.kind]), hk, ?_⟩
    exact (hn.nestingTooDeep rfl).resolve_left (by rw [hk]; decide)

end TokenSequence

end ArgTree
