import ArgTree.Proofs.Parser.Faults
import ArgTree.Proofs.Parser.Parse

namespace ArgTree

namespace Outcome

variable {n m : Nat} {α β : Type}

-- The outcome is the other one, or it is cut off for a level too many.
def Within (o o' : Outcome n α) : Prop :=
  o = o' ∨ ∃ rest, o = .fail .nestingTooDeep rest

namespace Within

variable {o o' : Outcome n α}

theorem refl (o : Outcome n α) : o.Within o :=
  .inl rfl

theorem widen {h : n ≤ m} : o.Within o' → (o.widen h).Within (o'.widen h)
  | .inl ho        => .inl (congrArg (·.widen h) ho)
  | .inr ⟨ts, ho⟩  => .inr ⟨ts, congrArg (·.widen h) ho⟩

theorem mapValue {f : α → β} : o.Within o' → (o.mapValue f).Within (o'.mapValue f)
  | .inl ho        => .inl (congrArg (·.mapValue f) ho)
  | .inr ⟨ts, ho⟩  => .inr ⟨ts, congrArg (·.mapValue f) ho⟩

theorem andThen {f f' : Reading Lexeme n α → Outcome m β} (ho : o.Within o')
    (hf : ∀ r, (f r).Within (f' r)) : (o.andThen f).Within (o'.andThen f') := by
  obtain rfl | ⟨ts, rfl⟩ := ho
  case inr => exact .inr ⟨ts, rfl⟩
  case inl =>
    cases o
    case error f => exact .inl rfl
    case ok r    => exact hf r

end Within

end Outcome

namespace Parser

open Lookahead

section

variable {inner inner' : Inner}
  (hi : ∀ what opener ts, (inner what opener ts).Within (inner' what opener ts))

include hi

theorem assigned_within (ts : List Lexeme) : (assigned inner ts).Within (assigned inner' ts) := by
  cases ts
  case nil => exact .refl _
  case cons t ts =>
    simp only [assigned]
    split
    case isTrue => exact hi _ t ts
    case isFalse =>
      split
      case h_1 => exact hi _ t ts
      case h_2 => exact .refl _

theorem assignment_within (ts : List Lexeme) :
    (assignment inner ts).Within (assignment inner' ts) := by
  cases ts
  case nil => exact .refl _
  case cons t ts =>
    simp only [assignment]
    split
    case h_1 => exact .refl _
    case h_2 => exact (assigned_within hi _).mapValue.widen

theorem entries_within (ready : Bool) (es : Entries Value) (ts : List Lexeme) :
    (entries inner ready es ts).Within (entries inner' ready es ts) := by
  rw [entries, entries.eq_def inner']
  split
  case h_1 => exact .refl _
  case h_2 t us h =>
    have hl := length_lt_of_skipWhitespace h
    dsimp only
    repeat' split
    case isFalse.isTrue.isFalse => exact (entries_within true es us).widen
    case isFalse.isFalse.isFalse.isFalse =>
      refine (assignment_within hi _).andThen fun ⟨(key, v), vs, hv⟩ => ?_
      have hv : vs.length < ts.length := Nat.lt_of_lt_of_le hv hl
      exact (entries_within false (es.insert key v) vs).widen
    all_goals exact .refl _
termination_by ts.length

theorem item_within (t : Lexeme) (ts : List Lexeme) :
    (item inner t ts).Within (item inner' t ts) := by
  simp only [item]
  split
  case h_3 => exact hi _ t ts
  case h_4 => exact hi _ t ts
  case h_5 => exact (assignment_within hi _).mapValue
  all_goals exact .refl _

theorem items_within (l : Level) (last : List Value) (ts : List Lexeme) :
    (items inner l last ts).Within (items inner' l last ts) := by
  rw [items.eq_def, items.eq_def inner']
  cases ts
  case nil => exact .refl _
  case cons t ts =>
    dsimp only
    split
    case isTrue => exact .refl _
    case isFalse =>
      split
      case h_1 => exact .refl _
      case h_2 | h_3 =>
        split
        case h_1 | h_3 => exact .refl _
        case h_2       => exact (items_within _ last ts).widen
        case h_4       =>
          refine (hi _ t ts).andThen fun r => ?_
          obtain ⟨group, us, hu⟩ := r
          exact (items_within _ (group :: last.tail) us).widen
      case h_4 =>
        split
        case isTrue => exact .refl _
        case isFalse =>
          split
          case h_1 => exact .refl _
          case h_2 =>
            refine (item_within hi t ts).andThen fun r => ?_
            obtain ⟨v, us, hu⟩ := r
            have hp := length_skipPadding_le us
            exact (items_within _ (v :: last) (skipPadding us)).widen
termination_by ts.length

theorem level_within (close : Close) (first : Option Value) (ts : List Lexeme) :
    (level inner close first ts).Within (level inner' close first ts) := by
  simp only [level]
  split
  case isTrue  => exact .refl _
  case isFalse => exact (items_within hi _ _ _).widen

end

theorem nested_within (h : d ≤ e) : ∀ what opener ts,
    (nested d what opener ts).Within (nested e what opener ts) := by
  induction d generalizing e
  case zero => exact fun _ opener ts => .inr ⟨opener :: ts, rfl⟩
  case succ d hi =>
    obtain ⟨e, rfl⟩ := Nat.exists_eq_add_of_lt h
    have hi := hi (Nat.le_add_right d e)
    intro what opener ts
    cases what
    case list close    => exact (level_within hi (.bracket close) none ts).mapValue
    case group c first => exact (level_within hi (.group c) first ts).mapValue
    case hash          => exact (entries_within hi true [] ts).mapValue.widen

-- Every level that is opened takes a lexeme, so that a limit of as many levels as there are lexemes
-- cuts nothing off.
theorem inherited_of_length (d : Nat) :
    Inherited fun ts f => ts.length ≤ d → f.cause ≠ .nestingTooDeep where
  passed hu h hl := h (hu.length_le.trans hl)
  raised _ hc _  := hc

theorem nested_not_cutOff (d : Nat) : ∀ what opener ts, (nested d what opener ts).FailsOnly
    fun f => ts.length < d → f.cause ≠ .nestingTooDeep :=
  nested_fails inherited_of_length (fun _ _ h => absurd h (Nat.not_succ_le_zero _))
    (fun _ _ _ _ h hl => h (Nat.le_of_succ_le_succ hl)) d

end Parser

theorem Cause.kind_eq_nestingTooDeep_iff {c : Cause} :
    c.kind = .nestingTooDeep ↔ c = .nestingTooDeep := by
  cases c <;> simp [kind]

-- The reading was cut off for a level too many.
def IsCutOff (result : Except ParseError Value) : Prop :=
  ∃ e, result = .error e ∧ e.kind = .nestingTooDeep

namespace TokenSequence

open ArgTree.Parser

variable {s : TokenSequence} {o : ParseOptions}

theorem isCutOff_parse_iff : IsCutOff (s.parse o) ↔
    ∃ ts, s.parseOutcome o = .error ⟨.nestingTooDeep, ts⟩ := by
  simp only [IsCutOff, parse_eq_error_iff]
  constructor
  case mpr => exact fun ⟨ts, h⟩ => ⟨_, ⟨_, h, rfl⟩, rfl⟩
  case mp  =>
    rintro ⟨_, ⟨⟨cause, ts⟩, h, rfl⟩, hk⟩
    exact ⟨ts, Cause.kind_eq_nestingTooDeep_iff.mp hk ▸ h⟩

theorem parse_within (s : TokenSequence) (start : Nat) (unwrapSingleton : Bool) (h : m ≤ m') :
    s.parse ⟨start, unwrapSingleton, m⟩ = s.parse ⟨start, unwrapSingleton, m'⟩ ∨
      IsCutOff (s.parse ⟨start, unwrapSingleton, m⟩) := by
  rw [isCutOff_parse_iff]
  rcases level_within (nested_within h) .endOfText none (s.lexemesFrom start) with he | ⟨ts, he⟩
  case inl => exact .inl (by simp only [parse, parseOutcome, he])
  case inr => exact .inr ⟨ts, by simp only [parseOutcome, he]; rfl⟩

theorem not_isCutOff_of_length_le (h : (s.lexemesFrom o.start).length ≤ o.maxDepth) :
    ¬IsCutOff (s.parse o) := by
  have hl := level_fails (inherited_of_length o.maxDepth) (nested_leavesSuffix o.maxDepth)
    (nested_not_cutOff o.maxDepth) .endOfText none (s.lexemesFrom o.start)
  rw [isCutOff_parse_iff]
  rintro ⟨ts, hp⟩
  rcases parseOutcome_eq_error_iff.mp hp with he | ⟨_, _, _, he⟩
  case inl => exact hl _ he h rfl
  case inr => cases he

-- The limit only cuts off: a lower limit leads to the same result, or to none. There is one
-- threshold from which on the limit does not matter.
theorem parse_cutOff_below_threshold (s : TokenSequence) (start : Nat) (unwrapSingleton : Bool) :
    let result m := s.parse ⟨start, unwrapSingleton, m⟩
    (∀ m m', m ≤ m' → result m = result m' ∨ IsCutOff (result m)) ∧
      ∃ threshold, (∀ m, IsCutOff (result m) ↔ m < threshold) ∧
        ∀ m, threshold ≤ m → result m = result threshold := by
  intro result
  have hw m m' (h : m ≤ m') : result m = result m' ∨ IsCutOff (result m) :=
    parse_within s start unwrapSingleton h
  have he : ∃ m, ¬IsCutOff (result m) :=
    ⟨(s.lexemesFrom start).length, not_isCutOff_of_length_le (Nat.le_refl _)⟩
  classical
  have hn := Nat.find_spec he
  have heq m (h : Nat.find he ≤ m) : result m = result (Nat.find he) :=
    ((hw _ _ h).resolve_right hn).symm
  refine ⟨hw, Nat.find he, fun m => ⟨fun hm => ?_, fun hm => not_not.mp (Nat.find_min he hm)⟩, heq⟩
  exact Nat.lt_of_not_le fun h => hn (heq m h ▸ hm)

theorem parse_cutOff_below_threshold_brackets :
    let lexemes : List (Kind × String) :=
      [(.lSquare, "["), (.lSquare, "["), (.word, "a"), (.rSquare, "]"), (.rSquare, "]")]
    let tokens := lexemes.map fun (kind, text) =>
      { kind, value := .str text, text, span := .empty 0 : Token }
    let s : TokenSequence := { source := "[[a]]", tokens, counters := {} }
    IsCutOff (s.parse { maxDepth := 1 }) ∧ 2 ≤ 1000 ∧
      s.parse { maxDepth := 1000 } = .ok (.list [.list [.str "a"]]) := by
  intro lexemes tokens s
  have hp : s.parse { maxDepth := 2 } = .ok (.list [.list [.str "a"]]) := by cbv
  have hc : IsCutOff (s.parse { maxDepth := 1 }) := ⟨_, by cbv, rfl⟩
  have hn : ¬IsCutOff (s.parse { maxDepth := 2 }) := by simp [hp, IsCutOff]
  have hw := (parse_cutOff_below_threshold s 0 true).left
  exact ⟨hc, by decide, ((hw 2 1000 (by decide)).resolve_right hn).symm.trans hp⟩

end TokenSequence

end ArgTree
