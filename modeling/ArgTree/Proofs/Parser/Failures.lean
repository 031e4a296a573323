import ArgTree.Proofs.Lexing.Tiles
import ArgTree.Proofs.Parser.Faults
import ArgTree.Proofs.Parser.Levels

namespace ArgTree

open Lookahead

-- The text ends too soon.
def Fault.IsCutShort (f : Fault) : Prop :=
  f.cause.kind = .unexpectedEnd ∧ f.rest = []

namespace Parser

theorem escaped_cutShort (ts : List Lexeme) : (escaped ts).FailsOnly (·.IsCutShort) := by
  induction ts
  case nil => exact Outcome.failsOnly_fail.mpr ⟨rfl, rfl⟩
  case cons t ts hi =>
    simp only [escaped]
    split
    case isTrue  => simpa using hi
    case isFalse => exact Outcome.failsOnly_ok

theorem verbatim_cutShort (close : Kind) (depth : Nat) (ts : List Lexeme) :
    (verbatim close depth ts).FailsOnly (·.IsCutShort) := by
  fun_induction verbatim close depth ts
  case case1 | case2                                => exact Outcome.failsOnly_fail.mpr ⟨rfl, rfl⟩
  case case3 hi | case5 hi | case6 hi | case7 hi    => simpa using hi
  case case4                                        => exact Outcome.failsOnly_ok

-- A failure that a reading meets which goes on from a place.
def Meets (p : Place) (f : Fault) : Prop :=
  ∃ q, Visits p q ∧ Raises q f

theorem Raises.meets (h : Raises p f) : Meets p f :=
  ⟨p, .refl, h⟩

theorem Next.meets (h : Next p q) : Meets q f → Meets p f
  | ⟨r, hv, hr⟩ => ⟨r, .head h hv, hr⟩

-- A failure that a reading meets behind the lexeme that opens something nested, or in front of it.
inductive MeetsInside : (depth : Nat) → Nested → (opener : Lexeme) → List Lexeme → Fault → Prop
  | tooDeep : MeetsInside 0 what opener ts ⟨.nestingTooDeep, opener :: ts⟩
  | opened  : Meets (what.place d ts) f → MeetsInside (d + 1) what opener ts f

section

variable (hi : ∀ what opener ts, Proper ts →
  (nested d what opener ts).FailsOnly (MeetsInside d what opener ts))

include hi

-- The value of an assignment fails only inside, since it is looked for in advance.
theorem assigned_meets (hp : Proper ts) (hv : (kind ts).isElement ∨ (kind ts).isOpening) :
    (assigned (nested d) ts).FailsOnly fun f => ∃ what opener us, ts = opener :: us ∧
      AssignsNested (opener :: us) what us ∧ MeetsInside d what opener us f := by
  cases ts
  case nil => simp [kind, Kind.isElement, Kind.isOpening, Kind.closing?] at hv
  case cons t ts =>
    have hp := hp.of_suffix (List.suffix_cons t ts)
    simp only [assigned]
    split
    case isTrue ht => exact (hi _ t ts hp).imp fun f hf => ⟨_, t, ts, rfl, .hash ht, hf⟩
    case isFalse hn =>
      split
      case h_1 hc => exact (hi _ t ts hp).imp fun f hf => ⟨_, t, ts, rfl, .list hn hc, hf⟩
      case h_2 hc =>
        have he : t.kind.isElement := hv.resolve_right (by simp [kind, Kind.isOpening, hc])
        simp [he]

theorem assignment_meets (hp : Proper ts) (ha : assignment? ts = some a) :
    (assignment (nested d) ts).FailsOnly fun f => ∃ what opener us, a.value = opener :: us ∧
      AssignsNested (opener :: us) what us ∧ MeetsInside d what opener us f := by
  have hs := (suffix_of_assignment? ha).left
  cases ts
  case nil => contradiction
  case cons t ts =>
    obtain ⟨_, _, _, _, _, rfl, hv⟩ := assignment?_eq_some_iff.mp ha
    simp only [assignment]
    split
    case h_1 hn => cases hn.symm.trans ha
    case h_2 hb =>
      cases hb.symm.trans ha
      simpa using assigned_meets hi (hp.of_suffix hs) hv

theorem entries_meets (ready : Bool) (es : Entries Value) (hp : Proper ts) :
    (entries (nested d) ready es ts).FailsOnly (Meets (.entries d ready es ts)) := by
  have hw {ts t us} (h : skipWhitespace ts = t :: us) : t :: us <:+ ts :=
    h ▸ skipWhitespace_suffix ts
  fun_induction entries (nested d) ready es ts
  case case1 h => simpa using (Raises.entries h).meets
  case case2 h _ hk => simpa using (Raises.noEntry h (.inl hk)).meets
  case case3 => exact Outcome.failsOnly_ok
  case case4 h _ _ hk => simpa using (Raises.noEntry h (.inr hk)).meets
  case case5 h _ _ hk hr ih =>
    obtain rfl := Bool.eq_false_iff.mpr hr
    have ih := ih (hp.of_suffix ((List.suffix_cons ..).trans (hw h)))
    simpa using ih.imp fun f => (Next.comma h hk).meets
  case case6 h _ _ _ ha => simpa using (Raises.entry h (by simpa using ha)).meets
  case case7 ready _ _ _ _ h _ _ _ ha hr =>
    obtain rfl : ready = false := by simpa using hr
    obtain ⟨a, ha⟩ := Option.ne_none_iff_exists'.mp (by simpa using ha)
    simpa using (Raises.noComma h (isElement_of_assignment? ha)).meets
  case case8 ready _ _ t us h _ _ _ ha hr ih =>
    obtain rfl : ready = true := by simpa using hr
    have hp := hp.of_suffix (hw h)
    obtain ⟨a, ha⟩ := Option.ne_none_iff_exists'.mp (by simpa using ha)
    refine .andThen ((assignment_meets hi hp ha).imp ?_) fun r hr => ?_
    case refine_1 =>
      rintro f ⟨what, opener, vs, hv, hn, hf⟩
      rw [← h] at ha
      cases hf with
      | tooDeep   => exact (Raises.value ha hn hv).meets
      | opened hf => exact (Next.value ha (hv ▸ hn)).meets hf
    case refine_2 =>
      obtain ⟨⟨key, v⟩, vs, hl⟩ := r
      have ha : ReadsAssignment (nested d) (t :: us) (key, v) vs :=
        assignment_yields_iff.mp ⟨_, hr, rfl, rfl⟩
      have ih := ih key v vs hl (hp.of_suffix (ha.suffix (nested_leavesSuffix d)))
      simpa using ih.imp fun f => (Next.entry (h ▸ ha)).meets

theorem item_meets {last : List Value} (hp : Proper (t :: ts)) (he : l.endsAt t.kind = false)
    (hl : l.item t.kind = (.proceed, l')) (ht : t.kind.begins) :
    (item (nested d) t ts).FailsOnly (Meets (.items d l last (t :: ts))) := by
  have hts := hp.of_suffix (List.suffix_cons t ts)
  have hin {what us opener f} (hb : BeginsNested (t :: ts) what us) (hs : opener :: us <:+ t :: ts)
      (hf : MeetsInside d what opener us f) : Meets (.items d l last (t :: ts)) f := by
    cases hf with
    | tooDeep   => exact (Raises.opening he hl hb hs).meets
    | opened hf => exact (Next.opening he hl hb).meets hf
  by_cases hel : t.kind.isElement
  case pos =>
    rw [item_of_isElement hel]
    split
    case isFalse => exact Outcome.failsOnly_ok
    case isTrue ha =>
      obtain ⟨a, ha⟩ := Option.isSome_iff_exists.mp ha
      rw [Outcome.failsOnly_mapValue]
      refine (assignment_meets hi hp ha).imp ?_
      rintro f ⟨what, opener, us, hv, hn, hf⟩
      exact hin (.assignment ha (hv ▸ hn)) (hv ▸ (suffix_of_assignment? ha).left) hf
  case neg =>
    cases hk : t.kind <;>
      simp [hk, Kind.begins, Kind.isElement, Kind.isOpening, Kind.closing?] at ht hel
    case escape =>
      simp only [item, role, kind, hk, Outcome.failsOnly_widen, Outcome.failsOnly_mapValue]
      exact fun f hf => (Raises.escape he hl hk hf).meets
    case lParen =>
      simp only [item, role, kind, hk, Outcome.failsOnly_widen, Outcome.failsOnly_mapValue]
      exact fun f hf => (Raises.region he hl hk hf).meets
    case lCurly =>
      simp only [item, role, kind, hk]
      exact (hi _ t ts hts).imp fun f => hin (.hash hk) List.suffix_rfl
    case lSquare =>
      simp only [item, role, kind, hk]
      exact (hi _ t ts hts).imp fun f => hin (.array hk) List.suffix_rfl

theorem items_meets (l : Level) (last : List Value) (hp : Proper ts) :
    (items (nested d) l last ts).FailsOnly (Meets (.items d l last ts)) := by
  have hr := items_round d l last ts
  generalize items (nested d) l last ts = o at hr
  cases hr with
  | stops             => exact Outcome.failsOnly_ok
  | raises hr         => exact Outcome.failsOnly_fail.mpr (hr hp).meets
  | item he hl hb hf  =>
    have hb := hb (hp _ List.mem_cons_self)
    exact Outcome.failsOnly_fail.mpr (item_meets hi hp he hl hb _ hf)
  | group he hd ht hf =>
    refine Outcome.failsOnly_fail.mpr ?_
    cases hi _ _ _ (hp.of_suffix (List.suffix_cons ..)) _ hf with
    | tooDeep   => exact (Raises.group he hd ht).meets
    | opened hf => exact (Next.group he hd ht).meets hf
  | @next _ _ _ us hn _ =>
    have hs : us <:+ ts := hn.shortens.left
    simpa using (items_meets _ _ (hp.of_suffix hs)).imp fun _ => hn.meets
termination_by ts.length
decreasing_by exact hn.shortens.right

theorem level_meets (close : Close) (first : Option Value) (hp : Proper ts) :
    (level (nested d) close first ts).FailsOnly
      (Meets (.items d (.start close) first.toList (skipWhitespace ts))) := by
  simp only [level]
  split
  case isTrue hk  => simpa using (Raises.start hk).meets
  case isFalse    => simpa using items_meets hi _ _ (hp.of_suffix (skipWhitespace_suffix ts))

end

theorem nested_meets (d : Nat) : ∀ what opener ts, Proper ts →
    (nested d what opener ts).FailsOnly (MeetsInside d what opener ts) := by
  induction d
  case zero => exact fun _ _ _ _ => Outcome.failsOnly_fail.mpr .tooDeep
  case succ d hi =>
    intro what opener ts hp
    cases what with
    | list close    => simpa [nested] using (level_meets hi _ none hp).imp fun _ h => .opened h
    | group c first => simpa [nested] using (level_meets hi _ first hp).imp fun _ h => .opened h
    | hash          => simpa [nested] using (entries_meets hi true [] hp).imp fun _ h => .opened h

end Parser

namespace TokenSequence

open ArgTree.Parser

variable {s : TokenSequence} {o : ParseOptions}

theorem proper_of_ofGrammar {g : Grammar} {source : String} (hs : ofGrammar g source = .ok s) :
    Proper s.lexemes := by
  simp only [ofGrammar] at hs
  split at hs <;> cases hs
  case h_1 lexed hl =>
    obtain ⟨ts, hts, rfl⟩ := Grammar.exists_tiles_of_lex hl
    intro t ht
    obtain ⟨u, hu, rfl⟩ := List.mem_map.mp ht
    exact Tile.kind_ne_of_tokens hts hu

-- What the top level leaves behind lacks a comma.
theorem raises_of_left_over (hp : Proper ts) (hl : ReadsLevel (nested d) .endOfText none ts vs us)
    (hu : us ≠ []) : Meets (.top d ts) ⟨.delimiterExpected, us⟩ := by
  obtain ⟨l, ts', hv, hf⟩ := hl.items.visits
  have hc := (Underway.visits hv).close_eq
  refine ⟨_, hv, ?_⟩
  cases hf with
  | closes _ hb _ => cases hc.symm.trans hb
  | ends he _     =>
    obtain ⟨t, us, rfl⟩ := List.exists_cons_of_ne_nil hu
    simp only [Level.endsAt, hc, decide_eq_true_eq] at he
    have hs := hl.suffix (nested_leavesSuffix d)
    exact absurd he (hp t (hs.subset List.mem_cons_self))
  | @lacks t us hi hm ht _ =>
    have ho := Kind.not_isOpening ht
    have hk := kind_ne_of_begins (ht.imp_right .inr)
    have he : l.endsAt t.kind = false := by simp [Level.endsAt, hc, hk]
    have hl : l.item t.kind = (.complete, l) := by simp [Level.item, hi, hm, ho, hk]
    exact .lacks he hl ht (by simp [hc])

-- Every failure of a parse is one at a place that it comes to.
theorem exists_raises (hp : Proper s.lexemes) (h : s.parseOutcome o = .error f) :
    ∃ p, s.ComesTo o p ∧ Raises p f := by
  have hp : Proper (s.lexemesFrom o.start) := hp.of_suffix (List.drop_suffix ..)
  rcases parseOutcome_eq_error_iff.mp h with h | ⟨top, ht, hr, rfl⟩
  case inl => exact level_meets (nested_meets o.maxDepth) .endOfText none hp f h
  case inr => exact raises_of_left_over hp (level_yields_iff.mp ⟨top, ht, rfl, rfl⟩) hr

end TokenSequence

end ArgTree
