import ArgTree.Proofs.Syntax.Boundaries

namespace ArgTree

open ArgTree.Parser Lookahead

namespace Syntax

-- What is nested in a phrase is read according to the grammar.
structure Derived (m d : Nat) (inner : Inner) : Prop where
  suffix : LeavesSuffix inner
  list   : (inner (.list k) t ts).Yields v us → Spaced ts →
           d < m ∧ ∃ vs u, v = .list vs ∧ Level m (d + 1) ts vs (u :: us) ∧ u.kind = k
  group  : (inner (.group c (some w)) t ts).Yields v us → Spaced ts → kind ts ≠ .whitespace →
           c ≠ .undetermined →
           d < m ∧ ∃ vs xs, v = .list (w :: vs) ∧ Units m (d + 1) c false ts vs xs ∧
             Ends (.group c) xs us
  hash   : (inner .hash t ts).Yields v us → Spaced ts → t.kind = .lCurly →
           d < m ∧ Hash m (d + 1) (t :: ts) v us

variable {m d : Nat} {inner : Inner}

theorem kind_of_closing? {k : Kind} (hk : k ≠ .lCurly) (hc : k.closing? = some close) :
    k = .lSquare ∨ k = .lParen := by
  cases k <;> simp [Kind.closing?] at hk hc ⊢

theorem assigned_of_reads (hi : Derived m d inner) (h : ReadsAssigned inner ts v us)
    (hs : Spaced ts) : Assigned m d ts v us := by
  cases h with
  | hash hk h =>
    have ⟨hd, hh⟩ := hi.hash h hs.of_cons hk
    exact .hash hd hh
  | list hk hc h =>
    obtain ⟨hd, vs, u, rfl, hl, rfl⟩ := hi.list h hs.of_cons
    exact .list hd (kind_of_closing? hk hc) hl hc
  | element he => exact .element he

theorem assignment_of_reads (hi : Derived m d inner) (h : ReadsAssignment inner ts e us)
    (hs : Spaced ts) : Assignment m d ts e us := by
  obtain ⟨ha, hv⟩ := h
  have hsu := hs.of_suffix (suffix_of_assignment? ha).left
  cases ts
  case nil => contradiction
  case cons t ts =>
    obtain ⟨u, us, hu, hk, he, rfl, _⟩ := assignment?_eq_some_iff.mp ha
    have hp := hu ▸ hs.of_cons.pad
    have hsu' := hs.of_suffix <| (hu ▸ skipWhitespace_suffix ts).trans (List.suffix_cons t ts)
    exact .intro he hp hk hsu'.of_cons.pad (assigned_of_reads hi hv hsu)

theorem item_of_reads (hi : Derived m d inner) (h : ReadsItem inner ts v us) (hs : Spaced ts) :
    Item m d ts v us := by
  cases h with
  | escape hk hr      => exact .escape hk hr
  | verbatim hk hb hu => exact .verbatim hk hb hu
  | hash hk h =>
    have ⟨hd, hh⟩ := hi.hash h hs.of_cons hk
    exact .hash hd hh
  | array hk h =>
    obtain ⟨hd, vs, u, rfl, hl, hu⟩ := hi.list h hs.of_cons
    exact .array hd hk hl hu
  | assignment ha     => exact .assignment (assignment_of_reads hi ha hs)
  | element he _      => exact .element he

-- The entries of a hash that are still to come, with the comma in front of the first one if it was
-- not read yet.
theorem hashTail_of_reads (hi : Derived m d inner) (h : ReadsEntries inner ready es ts fs us)
    (hs : Spaced ts) : ∃ ps, fs = ps.foldl (fun es (key, v) => es.insert key v) es ∧
      if ready then ∃ e qs xs, ps = e :: qs ∧ Assignment m d (skipWhitespace ts) e xs ∧
        HashTail m d xs qs us
      else HashTail m d ts ps us := by
  induction h
  case close ht hk => exact ⟨[], rfl, .close (ht ▸ hs.pad) hk⟩
  case comma ts t us _ _ _ ht hk _ ih =>
    have hs' : Spaced (t :: us) := hs.of_suffix (ht ▸ skipWhitespace_suffix ts)
    obtain ⟨_, hf, e, qs, xs, rfl, ha, hq⟩ := ih hs'.of_cons
    rw [skipWhitespace_of_kind (hs'.kind_ne (.inr hk))] at ha
    exact ⟨_, hf, .comma (ht ▸ hs.pad) hk ha hq⟩
  case entry ts key v _ _ _ _ ha _ ih =>
    have hs' := hs.of_suffix (skipWhitespace_suffix ts)
    have ⟨qs, hf, hq⟩ := ih (hs'.of_suffix (ha.suffix hi.suffix))
    exact ⟨(key, v) :: qs, hf, _, qs, _, rfl, assignment_of_reads hi ha hs', hq⟩

theorem hash_of_reads (hi : Derived m d inner) (h : ReadsEntries inner true [] ts es us)
    (hk : t.kind = .lCurly) (hs : Spaced ts) : Hash m d (t :: ts) (.map es) us := by
  obtain ⟨_, rfl, e, qs, xs, rfl, ha, hq⟩ := hashTail_of_reads hi h hs
  exact .intro hk hs.pad ha hq

-- What a level in some convention still holds.
def Remainder (m d : Nat) (groups : Bool) :
    Convention → List Lexeme → List Value → List Lexeme → Prop
  | .undetermined => Body m d
  | c             => Units m d c groups

theorem Remainder.of_units (hc : c ≠ .undetermined) (h : Units m d c groups ts vs us) :
    Remainder m d groups c ts vs us := by
  cases c
  case undetermined => contradiction
  all_goals exact h

theorem Remainder.toUnits (h : Remainder m d groups c ts vs us) (hc : c ≠ .undetermined) :
    Units m d c groups ts vs us := by
  cases c
  case undetermined => contradiction
  all_goals exact h

-- An item in front of what follows in the convention `c'`.
theorem Remainder.cons {close : Close} (hf : close.Fits c) (hn : c' ≠ .undetermined)
    (hc : c = .undetermined ∨ c = c') (hi : Item m d ts v us) (hs : Separates c' us ws)
    (hd : c = .undetermined → c' = .comma → Delimits .comma us ws)
    (h : Remainder m d close.groups c' ws vs xs) :
    Remainder m d close.groups c ts (v :: vs) xs := by
  have hu := h.toUnits hn
  rcases hc with rfl | rfl
  case inr => exact .of_units hn (.itemMore hi hs hu)
  case inl =>
    rw [hf.groups] at hu
    cases c'
    case undetermined => contradiction
    case comma        => exact .comma hi (hd rfl rfl) hu
    case whitespace   => exact .whitespace hi hs hu

-- The states of a level in the convention `c` behind its beginning, in front of `ts`. What was read
-- of it ends with `before`, and perhaps with one unit more, which stands in front of `ts₀`.
inductive Reached (m d : Nat) (close : Close) (c : Convention) (before : List Value)
    (ts₀ ts : List Lexeme) : ArgTree.Level → List Value → Prop
  | ready : c ≠ .undetermined → kind ts ≠ .whitespace → ts₀ = ts →
            Reached m d close c before ts₀ ts (.ready close c) before
  | item  : Item m d ts₀ v ts₁ → skipPadding ts₁ = ts → Pad ts₁ ts →
            Reached m d close c before ts₀ ts (.begun close c) (v :: before)
  | group : c ≠ .undetermined → close.groups → Group m d c.opposite ts₀ v ts₁ →
            skipPadding ts₁ = ts → Pad ts₁ ts → Follows c.opposite ts →
            Reached m d close c before ts₀ ts (.begun close c) (v :: before)

namespace Reached

variable {close : Close} {c : Convention} {before last : List Value} {l l' : ArgTree.Level}
  {ts₀ ts : List Lexeme}

theorem single (hr : Reached m d close c before ts₀ ts l last) (hd : l.haveDelimiter = false) :
    ∃ v ts₁, last = v :: before ∧ Remainder m d close.groups c ts₀ [v] ts₁ ∧
      skipPadding ts₁ = ts ∧ Pad ts₁ ts := by
  cases hr with
  | ready            => contradiction
  | item hi hs hp    =>
    refine ⟨_, _, rfl, ?_, hs, hp⟩
    cases c
    case undetermined => exact .single hi
    all_goals exact .item hi
  | group hc hg h hs hp _ =>
    refine ⟨_, _, rfl, .of_units hc ?_, hs, hp⟩
    rw [hg]
    exact .group h

theorem close_eq (hr : Reached m d close c before ts₀ ts l last) : l.close = close := by
  cases hr <;> rfl

theorem convention_eq (hr : Reached m d close c before ts₀ ts l last) : l.convention = c := by
  cases hr <;> rfl

theorem haveDelimiter_eq_false (hr : Reached m d close c before ts₀ ts l last) (h : l.haveItem) :
    l.haveDelimiter = false := by
  cases hr <;> trivial

-- A delimiter separates the last unit from those that follow.
theorem delimiter (hr : Reached m d close c before ts₀ (t :: ts) l last) (hf : close.Fits c)
    (hd : l.delimiter t.kind = .ok (.proceed, l')) (hk : t.kind = .whitespace ∨ t.kind = .comma)
    (hs : Spaced (t :: ts)) :
    ∃ v c', last = v :: before ∧ close.Fits c' ∧ Reached m d close c' last ts ts l' last ∧
      ∀ vs us, Remainder m d close.groups c' ts vs us →
        Remainder m d close.groups c ts₀ (v :: vs) us := by
  have hw := hs.kind_ne hk
  cases hr with
  | ready hc hw => exact absurd (ArgTree.Level.ready_delimiter hc hk hd) hw
  | item hi hsk hp =>
    obtain ⟨c', rfl, hc', hc⟩ := ArgTree.Level.eq_ready_of_delimiter hd hk
    have hn : c' ≠ .undetermined := by rintro rfl; contradiction
    have hdel := Delimits.of_skipPadding hsk hp hc'
    refine ⟨_, c', rfl, hf.trans hc, .ready hn hw rfl, fun vs us h => ?_⟩
    exact .cons hf hn hc hi (.delimiter hdel) (fun _ hc => hc ▸ hdel) h
  | group hc hg h hsk hp hfo =>
    obtain ⟨c', rfl, hc', rfl | rfl⟩ := ArgTree.Level.eq_ready_of_delimiter hd hk
    case inl => contradiction
    case inr =>
      have hdel := Delimits.of_skipPadding hsk hp hc'
      refine ⟨_, c, rfl, hf, .ready hc hw rfl, fun vs us hu => .of_units hc ?_⟩
      rw [hg] at hu ⊢
      exact .groupMore h (.delimiter hdel) hdel.not_separates_opposite (hu.toUnits hc)

-- An item begins a new unit. If no delimiter stands in front of it, it decides the convention.
theorem item_step (hr : Reached m d close c before ts₀ (t :: ts) l last) (hf : close.Fits c)
    (hl : l.item t.kind = (.proceed, l')) (hi : Item m d (t :: ts) w us)
    (hs : Pad us (skipPadding us)) :
    ∃ c' mid, close.Fits c' ∧ Reached m d close c' last (t :: ts) (skipPadding us) l' (w :: last) ∧
      last = mid.reverse ++ before ∧ ∀ vs xs, Remainder m d close.groups c' (t :: ts) vs xs →
        Remainder m d close.groups c ts₀ (mid ++ vs) xs := by
  have hb := hi.begins
  have hcl := (kind_ne_of_begins hb).right.right.left
  cases hr with
  | ready hc _ h₀ =>
    rw [ArgTree.Level.eq_begun_of_item hl]
    exact ⟨c, [], hf, .item hi rfl hs, rfl, fun vs xs h => h₀ ▸ h⟩
  | item hi' hsk hp =>
    obtain ⟨c', rfl, hc, ha⟩ := ArgTree.Level.begun_item hl hcl
    cases eq_of_skipPadding_of_begins hsk hb
    have hn : c' ≠ .undetermined := by rintro rfl; simp at ha
    have hsep : Separates c' (t :: ts) (t :: ts) := .of_adjacent ha
    refine ⟨c', [_], hf.trans (hc.imp_left And.left), .item hi rfl hs, rfl, fun vs xs h => ?_⟩
    refine .cons hf hn (hc.imp_left And.left) hi' hsep (fun hu hm => ?_) h
    rcases hc with ⟨_, hw⟩ | he
    case inl => cases hm.symm.trans hw
    case inr => exact absurd (he.symm.trans hu) hn
  | group hc hg h hsk hp hfo =>
    obtain ⟨c', rfl, ⟨hu, _⟩ | rfl, ha⟩ := ArgTree.Level.begun_item hl hcl
    case inl => exact absurd hu hc
    case inr =>
      cases eq_of_skipPadding_of_begins hsk hb
      have hns := hfo.not_separates hb
      refine ⟨c, [_], hf, .item hi rfl hs, rfl, fun vs xs hx => .of_units hc ?_⟩
      rw [hg] at hx ⊢
      exact .groupMore h (.of_adjacent ha) hns (hx.toUnits hc)

-- The last item becomes the first one of a group.
theorem regroup (hr : Reached m d close c before ts₀ (t :: ts) l last) (hf : close.Fits c)
    (he : l.endsAt t.kind = false) (hd : l.delimiter t.kind = .ok (.regroup o, l')) :
    ∃ v ts₁, last = v :: before ∧ l'.regrouped = .begun close c ∧ close.groups ∧
      c ≠ .undetermined ∧ o = c.opposite ∧ Item m d ts₀ v ts₁ ∧ Delimits o ts₁ ts := by
  cases hr with
  | ready => exact absurd (ArgTree.Level.haveItem_of_regroup hd) (by simp [ArgTree.Level.ready])
  | item hi hsk hp =>
    obtain ⟨rfl, hc, rfl, hk⟩ := ArgTree.Level.eq_begun_of_regroup hd
    have hf := ArgTree.Level.groups_of_endsAt hf hk he
    exact ⟨_, _, rfl, rfl, hf, hc, rfl, hi, .of_skipPadding hsk hp hk⟩
  | group hc hg h hsk hp hfo =>
    obtain ⟨rfl, hc, rfl, hk⟩ := ArgTree.Level.eq_begun_of_regroup hd
    exact absurd hk hfo.delimiter?_ne

end Reached

-- Behind its beginning, a level is read according to the grammar.
theorem remainder_of_reads (hi : Derived m d inner) (h : ReadsItems inner l last ts vs us)
    (hs : Spaced ts) {close : Close} (hu : close = .endOfText → us = []) (hf : close.Fits c)
    (hr : Reached m d close c before ts₀ ts l last) :
    ∃ ws xs, vs = before.reverse ++ ws ∧ Remainder m d close.groups c ts₀ ws xs ∧
      Ends close xs us := by
  induction h generalizing c before ts₀
  case ends he hd =>
    obtain ⟨v, ts₁, rfl, hv, hsk, hp⟩ := hr.single hd
    cases hr.close_eq
    exact ⟨[v], ts₁, by simp, hv, .of_endsAt he hu hsk hp⟩
  case closes hk hc hd =>
    obtain ⟨v, ts₁, rfl, hv, _, hp⟩ := hr.single hd
    exact ⟨[v], ts₁, by simp, hv, hr.close_eq ▸ hc ▸ .bracket hk hp⟩
  case delimiter hd hk _ ih =>
    obtain ⟨v, c', rfl, hf', hr', hv⟩ := hr.delimiter hf hd hk hs
    obtain ⟨ws, xs, rfl, hw, he⟩ := ih hs.of_cons hu hf' hr'
    exact ⟨v :: ws, xs, by simp, hv ws xs hw, he⟩
  case regroup he hd hk hg _ ih =>
    obtain ⟨v, ts₁, rfl, hl, hgr, hc, rfl, hv, hdel⟩ := hr.regroup hf he hd
    obtain ⟨hm, gs, ys, rfl, hu', he'⟩ :=
      hi.group hg hs.of_cons (hs.kind_ne hk) (hc ∘ Convention.opposite_eq_undetermined)
    cases he' with
    | group hp hsk hfo =>
      rw [hl] at ih
      have hs' := hs.of_cons.of_suffix (hi.suffix _ _ _ _ _ hg)
      exact ih hs' hu hf (.group hc hgr (.intro hm hv hdel hu') hsk hp hfo)
  case lacks hit hk hb =>
    have ⟨hh, hc, _⟩ := ArgTree.Level.of_item_complete hit
    obtain ⟨v, ts₁, rfl, hv, hsk, hp⟩ := hr.single (hr.haveDelimiter_eq_false hh)
    refine ⟨[v], ts₁, by simp, hv, ?_⟩
    cases close
    case endOfText => cases hu rfl
    case bracket k => exact absurd hr.close_eq (hb k)
    case group o   =>
      obtain ⟨rfl, _⟩ := hf
      exact .group hp hsk <| .inr <| .inr <| .inr ⟨hr.convention_eq ▸ hc, hk⟩
  case item hl hv _ ih =>
    have hsu := hs.of_suffix (hv.suffix hi.suffix)
    obtain ⟨c', mid, hf', hr', rfl, hv⟩ := hr.item_step hf hl (item_of_reads hi hv hs) hsu.padding
    obtain ⟨ws, xs, rfl, hw, he⟩ := ih (hsu.of_suffix (skipPadding_suffix _)) hu hf' hr'
    exact ⟨mid ++ ws, xs, by simp, hv ws xs hw, he⟩

-- From its beginning on too. Only a top level can be empty.
theorem body_of_reads (hi : Derived m d inner) (h : ReadsLevel inner close none ts vs us)
    (hs : Spaced ts) (hu : close = .endOfText → us = []) (hf : close.Fits .undetermined) :
    vs = [] ∧ close = .endOfText ∧ Pad ts [] ∨
      ∃ ws xs, Pad ts ws ∧ Body m d ws vs xs ∧ Ends close xs us := by
  obtain ⟨hm, hc, h⟩ := h
  have hw := kind_skipWhitespace ts
  have hp := hs.pad
  have hs := hs.of_suffix (skipWhitespace_suffix ts)
  have hl := ArgTree.Level.start_of_fits hf
  generalize skipWhitespace ts = ws at *
  rw [hl] at h
  cases h with
  | ends he _ =>
    cases hce : close <;> rw [hce] at he hf
    case endOfText   => exact .inl ⟨rfl, rfl, hu hce ▸ hp⟩
    case bracket     => contradiction
    case group       => exact absurd rfl hf.right
  | closes hk _ _    => simp [kind, hk] at hc
  | delimiter _ _ hk => exact (hk.elim hw hm).elim
  | regroup _ _ hk   => exact (hk.elim hw hm).elim
  | lacks _ hl _ _   => exact absurd (ArgTree.Level.of_item_complete hl).left (by simp)
  | item _ hl hv hr  =>
    have hsu := hs.of_suffix (hv.suffix hi.suffix)
    have hv := item_of_reads hi hv hs
    cases (Prod.mk.inj hl).right
    have ⟨gs, xs, hg, hb, he⟩ := remainder_of_reads hi hr
      (hsu.of_suffix (skipPadding_suffix _)) hu hf (.item hv rfl hsu.padding)
    exact .inr ⟨_, xs, hp, by rwa [hg], he⟩

theorem level_of_reads (hi : Derived m d inner) (h : ReadsLevel inner (.bracket k) none ts vs us)
    (hs : Spaced ts) : ∃ u, Level m d ts vs (u :: us) ∧ u.kind = k := by
  rcases body_of_reads hi h hs nofun trivial with ⟨_, hc, _⟩ | ⟨ws, xs, hp, hb, he⟩
  case inl => contradiction
  case inr =>
    cases he with
    | bracket _ hx => exact ⟨_, .intro hp hb hx, rfl⟩

theorem top_of_reads (hi : Derived m 0 inner) (h : ReadsLevel inner .endOfText none ts vs [])
    (hs : Spaced ts) : Top m ts vs := by
  rcases body_of_reads hi h hs (fun _ => rfl) trivial with ⟨hv, _, hp⟩ | ⟨ws, xs, hp, hb, he⟩
  case inl => exact .inl ⟨hv, hp⟩
  case inr =>
    cases he with
    | endOfText hx => exact .inr (.intro hp hb hx)

theorem units_of_reads (hi : Derived m d inner) (h : ReadsLevel inner (.group c) (some w) ts vs us)
    (hs : Spaced ts) (hw : kind ts ≠ .whitespace) (hc : c ≠ .undetermined) :
    ∃ ws xs, vs = w :: ws ∧ Units m d c false ts ws xs ∧ Ends (.group c) xs us := by
  have h := h.items
  rw [skipWhitespace_of_kind hw] at h
  have hr : Reached m d (.group c) c [w] ts ts (.start (.group c)) [w] := .ready hc hw rfl
  have hu : Close.group c = .endOfText → us = [] := nofun
  have ⟨ws, xs, hv, hx, he⟩ := remainder_of_reads hi h hs hu ⟨rfl, hc⟩ hr
  exact ⟨ws, xs, hv, hx.toUnits hc, he⟩

theorem nested_derived (h : n + d = m) : Derived m d (nested n) := by
  induction n generalizing d
  case zero =>
    refine ⟨nested_leavesSuffix 0, fun h => ?_, fun h => ?_, fun h => ?_⟩
    all_goals exact absurd h not_nested_zero_yields
  case succ n ih =>
    have hi : Derived m (d + 1) (nested n) := ih (by omega)
    have hd : d < m := by omega
    refine ⟨nested_leavesSuffix _, fun h hs => ⟨hd, ?_⟩, fun h hs hw hc => ⟨hd, ?_⟩,
      fun h hs hk => ⟨hd, ?_⟩⟩
    all_goals
      obtain ⟨_, he, h⟩ := nested_yields_iff.mp h
      cases he
      cases h
    case refine_1 h =>
      obtain ⟨u, hl, hu⟩ := level_of_reads hi h hs
      exact ⟨_, u, rfl, hl, hu⟩
    case refine_2 h =>
      obtain ⟨ws, xs, rfl, hx, he⟩ := units_of_reads hi h hs hw hc
      exact ⟨ws, xs, rfl, hx, he⟩
    case refine_3 h => exact hash_of_reads hi h hk hs

end Syntax

end ArgTree
