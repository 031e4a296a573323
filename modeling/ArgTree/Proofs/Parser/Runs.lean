import ArgTree.Proofs.Parser.Places

namespace ArgTree

open Lookahead

namespace Parser

-- How many more levels may be opened at a place.
def Place.depth : Place → Nat
  | .items d _ _ _   => d
  | .entries d _ _ _ => d

theorem Nested.depth_place (what : Nested) : (what.place d ts).depth = d := by
  cases what <;> rfl

theorem Next.depth_le (h : Next p q) : q.depth ≤ p.depth := by
  cases h with
  | group | opening | value => exact Nested.depth_place _ ▸ Nat.le_succ _
  | _                       => exact Nat.le_refl _

-- The lexemes that are left at a place.
def Place.rest : Place → List Lexeme
  | .items _ _ _ ts   => ts
  | .entries _ _ _ ts => ts

theorem Nested.rest_place_suffix (what : Nested) : (what.place d ts).rest <:+ ts := by
  cases what with
  | list | group => exact skipWhitespace_suffix ts
  | hash         => exact List.suffix_rfl

theorem AssignsNested.exists_opener (h : AssignsNested ts what us) :
    ∃ opener, ts = opener :: us ∧ opener.kind.isOpening := by
  cases h with
  | hash ht   => exact ⟨_, rfl, by rw [ht]; rfl⟩
  | list _ ht => exact ⟨_, rfl, by rw [Kind.isOpening, ht]; rfl⟩

theorem BeginsNested.exists_opener (h : BeginsNested ts what us) :
    ∃ opener, opener :: us <:+ ts ∧ opener.kind.isOpening := by
  cases h with
  | hash ht          => exact ⟨_, List.suffix_rfl, by rw [ht]; rfl⟩
  | array ht         => exact ⟨_, List.suffix_rfl, by rw [ht]; rfl⟩
  | assignment ha hn =>
    obtain ⟨opener, hv, ho⟩ := hn.exists_opener
    exact ⟨opener, hv ▸ (suffix_of_assignment? ha).left, ho⟩

-- Every step takes something from the front of the lexemes that are left.
theorem Next.shortens (h : Next p q) : q.rest <:+ p.rest ∧ q.rest.length < p.rest.length := by
  have hc {t : Lexeme} {us vs ws} (h : t :: us <:+ ws) (h' : vs <:+ us) :
      vs <:+ ws ∧ vs.length < ws.length :=
    ⟨h'.trans ((List.suffix_cons t us).trans h),
      Nat.lt_of_le_of_lt h'.length_le (Nat.lt_of_succ_le h.length_le)⟩
  have hw {ts us} (h : us <:+ skipWhitespace ts) (hl : us.length < (skipWhitespace ts).length) :
      us <:+ ts ∧ us.length < ts.length :=
    ⟨h.trans (skipWhitespace_suffix ts), Nat.lt_of_lt_of_le hl (length_skipWhitespace_le ts)⟩
  cases h with
  | delimiter        => exact hc List.suffix_rfl List.suffix_rfl
  | group            => exact hc List.suffix_rfl (Nested.rest_place_suffix _)
  | regroup _ _ _ hg => exact hc List.suffix_rfl (nested_leavesSuffix _ _ _ _ _ _ hg)
  | comma hs _       => exact hc (hs ▸ skipWhitespace_suffix _) List.suffix_rfl
  | opening _ _ hb   =>
    obtain ⟨_, hs, _⟩ := hb.exists_opener
    exact hc hs (Nested.rest_place_suffix _)
  | value ha hn      =>
    obtain ⟨_, hv, _⟩ := hn.exists_opener
    have hs := hv ▸ (suffix_of_assignment? ha).left
    exact hc (hs.trans (skipWhitespace_suffix _)) (Nested.rest_place_suffix _)
  | item _ _ hr      =>
    have hs := (skipPadding_suffix _).trans (hr.suffix (nested_leavesSuffix _))
    have hl := (item_yields_iff.mpr hr).length_lt
    exact ⟨hs, Nat.lt_of_le_of_lt (length_skipPadding_le _) hl⟩
  | entry ha         =>
    exact hw (ha.suffix (nested_leavesSuffix _)) (assignment_yields_iff.mpr ha).length_lt

theorem Visits.suffix (h : Visits p q) : q.rest <:+ p.rest := by
  induction h
  case refl       => exact List.suffix_rfl
  case tail hn ih => exact hn.shortens.left.trans ih

theorem Visits.eq_or_length_lt (h : Visits p q) : p = q ∨ q.rest.length < p.rest.length := by
  cases h.cases_head
  case inl he => exact .inl he
  case inr h  =>
    obtain ⟨_, hn, hv⟩ := h
    exact .inr (Nat.lt_of_le_of_lt (Visits.suffix hv).length_le hn.shortens.right)

-- What the loop of a level keeps holds each time that the loop comes round. A place of the same
-- depth belongs to the same level, since no level is opened behind another one without leaving it.
theorem Visits.keeps {P : Level → List Value → List Lexeme → Prop}
    (delimiter : ∀ {l last t ts l'}, P l last (t :: ts) → l.endsAt t.kind = false →
      l.delimiter t.kind = .ok (.proceed, l') → P l' last ts)
    (regroup : ∀ {l last t ts c l' group us}, P l last (t :: ts) → l.endsAt t.kind = false →
      l.delimiter t.kind = .ok (.regroup c, l') →
      (nested d (.group c last.head?) t ts).Yields group us →
      P l'.regrouped (group :: last.tail) us)
    (item : ∀ {l last t ts l' v us}, P l last (t :: ts) → l.endsAt t.kind = false →
      l.item t.kind = (.proceed, l') → ReadsItem (nested d) (t :: ts) v us →
      P l' (v :: last) (skipPadding us))
    (h : P l last ts) (hv : Visits (.items d l last ts) (.items d l' last' ts')) :
    P l' last' ts' := by
  suffices hq : ∀ q, Visits (.items d l last ts) q → q.depth < d ∨
      ∃ l last ts, q = .items d l last ts ∧ P l last ts by
    rcases hq _ hv with hd | ⟨_, _, _, he, h⟩
    case inl => exact absurd hd (Nat.lt_irrefl d)
    case inr => cases he; exact h
  intro q hv
  induction hv
  case refl => exact .inr ⟨l, last, ts, rfl, h⟩
  case tail hn ih =>
    rcases ih with hd | ⟨_, _, _, rfl, h⟩
    case inl => exact .inl (Nat.lt_of_le_of_lt hn.depth_le hd)
    case inr =>
      cases hn with
      | delimiter he hl _   => exact .inr ⟨_, _, _, rfl, delimiter h he hl⟩
      | regroup he hl _ hg  => exact .inr ⟨_, _, _, rfl, regroup h he hl hg⟩
      | item he hl hi       => exact .inr ⟨_, _, _, rfl, item h he hl hi⟩
      | group               => exact .inl (Nested.depth_place _ ▸ Nat.lt_succ_self _)
      | opening             => exact .inl (Nested.depth_place _ ▸ Nat.lt_succ_self _)

-- What holds wherever a reading comes to. A level has not read an item and a delimiter last, an
-- item that was read is there to begin a group with, and a group has its convention at once.
def Place.Consistent : Place → Prop
  | .items _ l last _   => ¬(l.haveItem ∧ l.haveDelimiter) ∧ (l.haveItem → last ≠ []) ∧
      ∀ c, l.close = .group c → c ≠ .undetermined ∧ l.convention = c
  | .entries _ _ _ _    => True

theorem Nested.consistent (h : ∀ c first, what = .group c first → c ≠ .undetermined) :
    (Nested.place d ts what).Consistent := by
  cases what with
  | list close    => exact ⟨nofun, nofun, nofun⟩
  | group c first =>
    refine ⟨nofun, nofun, fun _ hc => ?_⟩
    cases hc
    exact ⟨h _ _ rfl, rfl⟩
  | hash          => trivial

theorem AssignsNested.not_group (h : AssignsNested ts what us) : what ≠ .group c first := by
  cases h <;> nofun

theorem BeginsNested.not_group (h : BeginsNested ts what us) : what ≠ .group c first := by
  cases h with
  | hash _          => nofun
  | array _         => nofun
  | assignment _ hn => exact hn.not_group

theorem Next.consistent (h : Next p q) (hp : p.Consistent) : q.Consistent := by
  have hconv {l l' : Level} (hf : ∀ c, l.close = .group c → c ≠ .undetermined ∧ l.convention = c)
      (hc : l'.close = l.close)
      (he : l.convention ≠ .undetermined → l'.convention = l.convention) :
      ∀ c, l'.close = .group c → c ≠ .undetermined ∧ l'.convention = c := by
    intro c hl
    have ⟨hn, hv⟩ := hf c (hc ▸ hl)
    exact ⟨hn, (he (hv ▸ hn)).trans hv⟩
  cases h with
  | delimiter _ hd _ =>
    have ⟨hi, _⟩ := Level.delimited_of_delimiter hd
    refine ⟨by simp [hi], by simp [hi], ?_⟩
    exact hconv hp.right.right (Level.close_of_delimiter hd) (Level.convention_eq_of_delimiter hd)
  | regroup _ hd _ _ =>
    have hc := Level.close_of_delimiter hd
    have he := Level.convention_eq_of_delimiter hd
    exact ⟨nofun, nofun, hconv hp.right.right hc he⟩
  | item _ hi _ =>
    have ⟨_, hd⟩ := Level.haveItem_of_item hi
    refine ⟨by simp [hd], nofun, ?_⟩
    exact hconv hp.right.right (Level.close_of_item hi) (Level.convention_eq_of_item hi)
  | group _ hd _ =>
    refine Nested.consistent fun _ _ hw => ?_
    cases hw
    exact (Level.of_regroup hd).right.right.left
  | opening _ _ hb => exact Nested.consistent fun _ _ hw => absurd hw hb.not_group
  | value _ ha     => exact Nested.consistent fun _ _ hw => absurd hw ha.not_group
  | comma | entry  => trivial

theorem Visits.consistent (h : Visits p q) (hp : p.Consistent) : q.Consistent := by
  induction h
  case refl       => exact hp
  case tail hn ih => exact hn.consistent ih

-- The delimiter that would start a group inside a group ends it.
theorem Place.Consistent.not_group (h : (Place.items d l last (t :: ts)).Consistent)
    (he : l.endsAt t.kind = false) (hd : l.delimiter t.kind = .ok (.regroup c, l')) :
    l.close ≠ .group c' := by
  intro hl
  have ⟨_, hv⟩ := h.right.right c' hl
  have ⟨_, _, _, _, ho⟩ := Level.of_regroup hd
  simp [Level.endsAt, Level.groupEndsAt, hl, ← hv, ho] at he

-- A level that is read comes to the place where it ends, with its items.
theorem ReadsItems.visits (h : ReadsItems (nested d) l last ts vs us) : ∃ l' ts',
    Visits (.items d l last ts) (.items d l' vs.reverse ts') ∧ Finishes l' ts' us := by
  have hy := items_yields_iff.mpr h
  have hr := items_round d l last ts
  generalize items (nested d) l last ts = o at hy hr
  cases hr with
  | raises | group | item => exact absurd hy Outcome.yields_fail
  | stops hf _ =>
    obtain ⟨rfl, rfl⟩ := Outcome.yields_ok.mp hy
    exact ⟨l, ts, by simpa using .refl, hf⟩
  | next hn _ =>
    have h := items_yields_iff.mp (Outcome.yields_widen.mp hy)
    obtain ⟨l', ts', hv, hf⟩ := h.visits
    exact ⟨l', ts', .head hn hv, hf⟩
termination_by ts.length
decreasing_by exact hn.shortens.right

-- A level on its way, if it began in front of `start` with the items `first`. The items that were
-- read since then are the later ones.
structure Underway (close : Close) (first : List Value) (start : List Lexeme) (l : Level)
    (last : List Value) (ts : List Lexeme) : Prop where
  close_eq      : l.close = close
  convention_eq : (Level.start close).convention ≠ .undetermined →
                  l.convention = (Level.start close).convention
  suffix        : ts <:+ start
  begun         : l = .start close ∧ last = first ∧ ts = start ∨ l.haveItem ∨ l.haveDelimiter
  read          : ∃ new, last = new ++ first ∧ (l.haveItem → new ≠ [] ∧ ts.length < start.length)

namespace Underway

variable {close : Close} {first last : List Value} {start ts us : List Lexeme} {l l' : Level}

theorem refl (close : Close) (first : List Value) (start : List Lexeme) :
    Underway close first start (.start close) first start where
  close_eq        := by cases close <;> rfl
  convention_eq _ := rfl
  suffix          := List.suffix_rfl
  begun           := .inl ⟨rfl, rfl, rfl⟩
  read            := ⟨[], rfl, by cases close <;> nofun⟩

theorem delimiter (h : Underway close first start l last (t :: ts))
    (hd : l.delimiter t.kind = .ok (.proceed, l')) : Underway close first start l' last ts where
  close_eq         := (Level.close_of_delimiter hd).trans h.close_eq
  convention_eq hc := by
    have he := h.convention_eq hc
    exact (Level.convention_eq_of_delimiter hd (he ▸ hc)).trans he
  suffix           := (List.suffix_cons t ts).trans h.suffix
  begun            := .inr (.inr (Level.delimited_of_delimiter hd).right)
  read             := by
    obtain ⟨new, he, _⟩ := h.read
    exact ⟨new, he, by simp [Level.delimited_of_delimiter hd]⟩

-- A group takes the place of the item that it begins with, which is no item of `first`.
theorem regroup (h : Underway close first start l last (t :: ts))
    (hd : l.delimiter t.kind = .ok (.regroup c, l')) (hu : us <:+ ts) (group : Value) :
    Underway close first start l'.regrouped (group :: last.tail) us where
  close_eq         := (Level.close_of_delimiter hd).trans h.close_eq
  convention_eq hc := by
    have he := h.convention_eq hc
    exact (Level.convention_eq_of_delimiter hd (he ▸ hc)).trans he
  suffix           := (hu.trans (List.suffix_cons t ts)).trans h.suffix
  begun            := .inr (.inl rfl)
  read             := by
    obtain ⟨new, rfl, hn⟩ := h.read
    have ⟨hn, hl⟩ := hn (Level.haveItem_of_regroup hd)
    refine ⟨group :: new.tail, ?_, fun _ => ⟨nofun, Nat.lt_of_le_of_lt ?_ hl⟩⟩
    · rw [List.tail_append_of_ne_nil hn, List.cons_append]
    · exact (hu.trans (List.suffix_cons t ts)).length_le

theorem item (h : Underway close first start l last (t :: ts))
    (hi : l.item t.kind = (.proceed, l')) (hu : us.length < (t :: ts).length) (hs : us <:+ t :: ts)
    (v : Value) : Underway close first start l' (v :: last) us where
  close_eq         := (Level.close_of_item hi).trans h.close_eq
  convention_eq hc := by
    have he := h.convention_eq hc
    exact (Level.convention_eq_of_item hi (he ▸ hc)).trans he
  suffix           := hs.trans h.suffix
  begun            := .inr (.inl (Level.haveItem_of_item hi).left)
  read             := by
    obtain ⟨new, rfl, _⟩ := h.read
    exact ⟨v :: new, rfl, fun _ => ⟨nofun, Nat.lt_of_lt_of_le hu h.suffix.length_le⟩⟩

theorem visits (hv : Visits (.items d (.start close) first start) (.items d l last ts)) :
    Underway close first start l last ts := by
  refine hv.keeps (fun h _ => h.delimiter) (fun h _ hd hg => ?_) (fun h _ hi hr => ?_)
    (refl close first start)
  case refine_1 => exact h.regroup hd (nested_leavesSuffix d _ _ _ _ _ hg) _
  case refine_2 =>
    have hs := (skipPadding_suffix _).trans (hr.suffix (nested_leavesSuffix d))
    have hl := (item_yields_iff.mpr hr).length_lt
    exact h.item hi (Nat.lt_of_le_of_lt (length_skipPadding_le _) hl) hs _

-- A level may end as soon as it has an item of its own. The top level may end without.
theorem new_of_finishes (h : Underway close first start l last ts) (hf : Finishes l ts us)
    (hc : ∀ k, close = .bracket k → (kind start).isClosing = false) (he : close ≠ .endOfText) :
    ts.length < start.length ∧ first.length < last.length := by
  obtain ⟨new, rfl, hn⟩ := h.read
  suffices hi : l.haveItem by
    have ⟨hn, hl⟩ := hn hi
    have := List.length_pos_iff.mpr hn
    simp only [List.length_append]
    omega
  have hg {c} (hl : l = .start (.group c)) (hd : l.haveDelimiter = false) : l.haveItem := by
    subst hl
    contradiction
  rcases h.begun with ⟨hl, _, hs⟩ | hi | hd
  case inr.inl => exact hi
  case inr.inr => cases hf <;> simp_all
  case inl =>
    cases close with
    | endOfText => contradiction
    | group c   => cases hf <;> first | exact hg hl ‹_› | assumption
    | bracket k =>
      subst hs
      have hc := hc k rfl
      cases hf with
      | ends he _     => exact absurd h.close_eq (Level.not_bracket_of_endsAt he)
      | closes ht _ _ => exact absurd ht (by simpa [kind] using hc)
      | lacks hi _ _  => exact hi

end Underway

end Parser

end ArgTree
