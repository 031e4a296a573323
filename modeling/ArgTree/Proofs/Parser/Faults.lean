import ArgTree.Proofs.Parser.Suffixes

namespace ArgTree

namespace Outcome

variable {n m : Nat} {α β : Type} {p : Fault → Prop}

-- Every failure that the outcome can be is as `p` says.
def FailsOnly (o : Outcome n α) (p : Fault → Prop) : Prop :=
  ∀ f, o = .error f → p f

@[simp]
theorem failsOnly_fail : (fail cause ts : Outcome n α).FailsOnly p ↔ p ⟨cause, ts⟩ :=
  ⟨fun h => h _ rfl, fun h _ he => Except.error.inj he ▸ h⟩

@[simp]
theorem failsOnly_ok {r : Reading Lexeme n α} : FailsOnly (.ok r : Outcome n α) p :=
  nofun

@[simp]
theorem failsOnly_widen {o : Outcome n α} {h : n ≤ m} :
    (o.widen h).FailsOnly p ↔ o.FailsOnly p := by
  cases o
  case ok      => exact ⟨nofun, nofun⟩
  case error f => exact failsOnly_fail.trans failsOnly_fail.symm

@[simp]
theorem failsOnly_mapValue {o : Outcome n α} {f : α → β} :
    (o.mapValue f).FailsOnly p ↔ o.FailsOnly p := by
  cases o
  case ok      => exact ⟨nofun, nofun⟩
  case error f => exact failsOnly_fail.trans failsOnly_fail.symm

theorem FailsOnly.andThen {o : Outcome n α} {f : Reading Lexeme n α → Outcome m β}
    (ho : o.FailsOnly p) (hf : ∀ r, o = .ok r → (f r).FailsOnly p) : (o.andThen f).FailsOnly p := by
  cases o
  case error e => exact failsOnly_fail.mpr (failsOnly_fail.mp ho)
  case ok r    => exact hf r rfl

theorem FailsOnly.imp {o : Outcome n α} {q : Fault → Prop} (ho : o.FailsOnly p)
    (hp : ∀ f, p f → q f) : o.FailsOnly q :=
  fun f he => hp f (ho f he)

end Outcome

theorem Level.cause_of_delimiter {l : Level} (h : l.delimiter k = .error cause) :
    cause = .whitespaceExpected ∨ cause = .itemExpected := by
  simp only [delimiter] at h
  split at h <;> (try split at h) <;> simp at h <;> simp [← h]

namespace Parser

open Lookahead

-- A property of the failures in front of some lexemes that is passed on to longer rows of lexemes,
-- and that every failure in front of a rest of them has, if it is not for a level too many.
structure Inherited (F : List Lexeme → Fault → Prop) : Prop where
  passed : us <:+ ts → F us f → F ts f
  raised : us <:+ ts → cause ≠ .nestingTooDeep → F ts ⟨cause, us⟩

variable {F : List Lexeme → Fault → Prop} {inner : Inner}

theorem Inherited.fails {n : Nat} {α : Type} (hF : Inherited F) (hu : us <:+ ts)
    (hc : cause ≠ .nestingTooDeep) : (Outcome.fail cause us : Outcome n α).FailsOnly (F ts) :=
  Outcome.failsOnly_fail.mpr (hF.raised hu hc)

theorem Inherited.passedOn {n : Nat} {α : Type} {o : Outcome n α} (hF : Inherited F)
    (hu : us <:+ ts) (ho : o.FailsOnly (F us)) : o.FailsOnly (F ts) :=
  ho.imp fun _ => hF.passed hu

theorem escaped_fails (hF : Inherited F) (ts : List Lexeme) : (escaped ts).FailsOnly (F ts) := by
  induction ts
  case nil => exact hF.fails List.suffix_rfl nofun
  case cons t ts hi =>
    simp only [escaped]
    split
    case isTrue  => simpa using hF.passedOn (List.suffix_cons t ts) hi
    case isFalse => exact Outcome.failsOnly_ok

theorem verbatim_fails (hF : Inherited F) (close : Kind) (depth : Nat) (ts : List Lexeme) :
    (verbatim close depth ts).FailsOnly (F ts) := by
  fun_induction verbatim close depth ts
  case case1      => exact hF.fails List.suffix_rfl (by simp)
  case case2      => exact hF.fails List.nil_suffix (by simp)
  case case3 t _ u ts hi =>
    simpa using hF.passedOn ((List.suffix_cons u ts).trans (List.suffix_cons t _)) hi
  case case4      => exact Outcome.failsOnly_ok
  case case5 hi   => simpa using hF.passedOn (List.suffix_cons ..) hi
  case case6 hi   => simpa using hF.passedOn (List.suffix_cons ..) hi
  case case7 hi   => simpa using hF.passedOn (List.suffix_cons ..) hi

variable (hF : Inherited F) (hs : LeavesSuffix inner)
  (hi : ∀ what opener ts, (inner what opener ts).FailsOnly (F (opener :: ts)))

include hF hi

theorem assigned_fails (ts : List Lexeme) : (assigned inner ts).FailsOnly (F ts) := by
  cases ts
  case nil => exact hF.fails List.suffix_rfl (by simp)
  case cons t ts =>
    simp only [assigned]
    split
    case isTrue => exact hi _ t ts
    case isFalse =>
      split
      case h_1 => exact hi _ t ts
      case h_2 =>
        split
        case isTrue  => exact Outcome.failsOnly_ok
        case isFalse => exact hF.fails List.suffix_rfl (by simp)

theorem assignment_fails (ts : List Lexeme) : (assignment inner ts).FailsOnly (F ts) := by
  cases ts
  case nil => exact hF.fails List.suffix_rfl (by simp)
  case cons t ts =>
    simp only [assignment]
    split
    case h_1    => exact hF.fails List.suffix_rfl (by simp)
    case h_2 ha => simpa using hF.passedOn (suffix_of_assignment? ha).left (assigned_fails hF hi _)

theorem item_fails (t : Lexeme) (ts : List Lexeme) :
    (item inner t ts).FailsOnly (F (t :: ts)) := by
  simp only [item]
  split
  case h_1 => simpa using hF.passedOn (List.suffix_cons t ts) (escaped_fails hF ts)
  case h_2 => simpa using hF.passedOn (List.suffix_cons t ts) (verbatim_fails hF .rParen 0 ts)
  case h_3 => exact hi _ t ts
  case h_4 => exact hi _ t ts
  case h_5 => simpa using assignment_fails hF hi (t :: ts)
  case h_6 =>
    split
    case isTrue  => exact Outcome.failsOnly_ok
    case isFalse => exact hF.fails List.suffix_rfl (by simp)

include hs

theorem entries_fails (ready : Bool) (es : Entries Value) (ts : List Lexeme) :
    (entries inner ready es ts).FailsOnly (F ts) := by
  have hw {ts t us} (h : skipWhitespace ts = t :: us) : t :: us <:+ ts :=
    h ▸ skipWhitespace_suffix ts
  fun_induction entries inner ready es ts
  case case1                 => exact hF.fails List.nil_suffix (by simp)
  case case3                 => exact Outcome.failsOnly_ok
  case case2 h _ _           => exact hF.fails (hw h) (by simp)
  case case4 h _ _ _         => exact hF.fails (hw h) (by simp)
  case case6 h _ _ _ _       => exact hF.fails (hw h) (by simp)
  case case7 h _ _ _ _ _     => exact hF.fails (hw h) (by simp)
  case case5 h _ _ _ _ ih    => simpa using hF.passedOn ((List.suffix_cons ..).trans (hw h)) ih
  case case8 h _ _ _ _ _ ih  =>
    refine .andThen (hF.passedOn (hw h) (assignment_fails hF hi _)) fun r hr => ?_
    obtain ⟨⟨key, v⟩, vs, hv⟩ := r
    have ha : ReadsAssignment inner _ (key, v) vs := assignment_yields_iff.mp ⟨_, hr, rfl, rfl⟩
    simpa using hF.passedOn ((ha.suffix hs).trans (hw h)) (ih key v vs hv)

theorem items_fails (l : Level) (last : List Value) (ts : List Lexeme) :
    (items inner l last ts).FailsOnly (F ts) := by
  have hd {l : Level} {k cause} (h : l.delimiter k = .error cause) : cause ≠ .nestingTooDeep := by
    rcases Level.cause_of_delimiter h with rfl | rfl <;> simp
  fun_induction items inner l last ts
  case case2 | case6 | case9 | case13 | case17 => exact Outcome.failsOnly_ok
  case case1 | case3 | case4 | case5 | case15 | case16 => exact hF.fails List.suffix_rfl (by simp)
  case case7 h _  => exact hF.fails List.suffix_rfl (hd h)
  case case11 h _ => exact hF.fails List.suffix_rfl (hd h)
  case case8 ih   => simpa using hF.passedOn (List.suffix_cons ..) ih
  case case12 ih  => simpa using hF.passedOn (List.suffix_cons ..) ih
  case case10 ih | case14 ih =>
    refine .andThen (hi _ _ _) fun r hr => ?_
    obtain ⟨group, us, hu⟩ := r
    have hg : us <:+ _ := hs _ _ _ _ _ ⟨_, hr, rfl, rfl⟩
    simpa using hF.passedOn (hg.trans (List.suffix_cons ..)) (ih group us hu)
  case case18 ih =>
    refine .andThen (item_fails hF hi _ _) fun r hr => ?_
    obtain ⟨v, us, hu⟩ := r
    have hv : us <:+ _ := (item_yields_iff.mp ⟨_, hr, rfl, rfl⟩).suffix hs
    simpa using hF.passedOn ((skipPadding_suffix us).trans hv) (ih v us hu)

theorem level_fails (close : Close) (first : Option Value) (ts : List Lexeme) :
    (level inner close first ts).FailsOnly (F ts) := by
  simp only [level]
  split
  case isTrue =>
    refine hF.fails (skipWhitespace_suffix ts) ?_
    split <;> simp
  case isFalse =>
    simpa using hF.passedOn (skipWhitespace_suffix ts) (items_fails hF hs hi _ _ _)

omit hF hs hi

-- `G` says of the failures under each limit what is passed on. It holds of every failure of a
-- nested reader if it holds of the one for a level too many and carries over to one more level.
theorem nested_fails {G : Nat → List Lexeme → Fault → Prop} (hG : ∀ d, Inherited (G d))
    (h₀ : ∀ opener ts, G 0 (opener :: ts) ⟨.nestingTooDeep, opener :: ts⟩)
    (h : ∀ d opener ts f, G d ts f → G (d + 1) (opener :: ts) f) (depth : Nat) :
    ∀ what opener ts, (nested depth what opener ts).FailsOnly (G depth (opener :: ts)) := by
  induction depth
  case zero => exact fun _ opener ts => Outcome.failsOnly_fail.mpr (h₀ opener ts)
  case succ d hi =>
    intro what opener ts
    have hs := nested_leavesSuffix d
    cases what
    case list close =>
      simpa [nested] using (level_fails (hG d) hs hi (.bracket close) none ts).imp (h d opener ts)
    case group c first =>
      simpa [nested] using (level_fails (hG d) hs hi (.group c) first ts).imp (h d opener ts)
    case hash =>
      simpa [nested] using (entries_fails (hG d) hs hi true [] ts).imp (h d opener ts)

end Parser

end ArgTree
