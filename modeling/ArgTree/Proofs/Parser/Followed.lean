import ArgTree.Proofs.Parser.Respaced

namespace ArgTree

open Lookahead

namespace Level

variable {l l' : Level}

theorem convention_of_delimiter (h : l.delimiter k = .ok (v, l')) (hc : l.convention = .comma) :
    l'.convention = .comma :=
  (convention_eq_of_delimiter h (hc ▸ nofun)).trans hc

theorem convention_of_item (h : l.item k = (v, l')) (hc : l.convention = .comma) :
    l'.convention = .comma :=
  (convention_eq_of_item h (hc ▸ nofun)).trans hc

end Level

namespace Parser

variable {inner : Inner}

section

variable (h : ReadsItems inner l last (t :: ts) vs us) (he : l.endsAt t.kind = false)

include h he

-- What can be read behind a delimiter, a group and an item: the first lexeme says which of them it
-- is.
theorem ReadsItems.of_delimiter (hd : l.delimiter t.kind = .ok (.proceed, l'))
    (ht : t.kind = .whitespace ∨ t.kind = .comma) : ReadsItems inner l' last ts vs us := by
  cases h with
  | ends he'            => cases he.symm.trans he'
  | closes hk           => rcases ht with ht | ht <;> simp [ht, Kind.isClosing, Kind.opening?] at hk
  | delimiter _ hd' _ h => cases hd.symm.trans hd'; exact h
  | regroup _ hd' _     => cases hd.symm.trans hd'
  | lacks _ _ hk        => rcases ht with ht | ht <;> simp [ht, Kind.isElement] at hk
  | item _ _ hr         =>
    obtain ⟨hw, hm, _⟩ := kind_ne_of_begins hr.begins
    exact (ht.elim hw hm).elim

theorem ReadsItems.of_regroup (hd : l.delimiter t.kind = .ok (.regroup c, l'))
    (ht : t.kind = .whitespace ∨ t.kind = .comma) : ∃ group ws,
      (inner (.group c last.head?) t ts).Yields group ws ∧
        ReadsItems inner l'.regrouped (group :: last.tail) ws vs us := by
  cases h with
  | ends he'              => cases he.symm.trans he'
  | closes hk =>
    rcases ht with ht | ht <;> simp [ht, Kind.isClosing, Kind.opening?] at hk
  | delimiter _ hd' _     => cases hd.symm.trans hd'
  | regroup _ hd' _ hg h  => cases hd.symm.trans hd'; exact ⟨_, _, hg, h⟩
  | lacks _ _ hk          => rcases ht with ht | ht <;> simp [ht, Kind.isElement] at hk
  | item _ _ hr           =>
    obtain ⟨hw, hm, _⟩ := kind_ne_of_begins hr.begins
    exact (ht.elim hw hm).elim

theorem ReadsItems.of_item (hi : l.item t.kind = (.proceed, l')) (ht : t.kind.begins) :
    ∃ v ws, ReadsItem inner (t :: ts) v ws ∧
      ReadsItems inner l' (v :: last) (skipPadding ws) vs us := by
  have ⟨hw, hm, hc, _⟩ := kind_ne_of_begins ht
  cases h with
  | ends he'          => cases he.symm.trans he'
  | closes hk         => exact absurd (hc.symm.trans hk) nofun
  | delimiter _ _ hk  => exact (hk.elim hw hm).elim
  | regroup _ _ hk    => exact (hk.elim hw hm).elim
  | lacks _ hi' _     => cases hi.symm.trans hi'
  | item _ hi' hr h   => cases hi.symm.trans hi'; exact ⟨_, _, hr, h⟩

end

theorem ReadsItem.unique (h : ReadsItem inner (t :: ts) v us)
    (h' : ReadsItem inner (t :: ts) w vs) : v = w ∧ us = vs :=
  (item_yields_iff.mpr h).unique (item_yields_iff.mpr h')

theorem ReadsAssignment.unique (h : ReadsAssignment inner ts e us)
    (h' : ReadsAssignment inner ts f vs) : e = f ∧ us = vs :=
  (assignment_yields_iff.mpr h).unique (assignment_yields_iff.mpr h')

theorem BeginsNested.begins (h : BeginsNested (t :: ts) what us) : t.kind.begins := by
  cases h with
  | hash ht         => exact .inr (.inl (by rw [ht]; rfl))
  | array ht        => exact .inr (.inl (by rw [ht]; rfl))
  | assignment ha _ => exact .inr (.inr (isElement_of_assignment? ha))

-- A place that a reading of the row with `bs` comes to as well, where it goes on to its end. `as`
-- is what the place itself has behind the comma.
def Followed (c : Lexeme) (as bs : List Lexeme) : Place → Prop
  | .items d l last ts       => (l.close = .group .comma → l.convention = .comma) ∧
    ∃ ts' vs us, Respaced c bs as ts' ts ∧ ReadsItems (nested d) l last ts' vs us
  | .entries d ready es ts   =>
    ∃ ts' fs us, Respaced c bs as ts' ts ∧ ReadsEntries (nested d) ready es ts' fs us

-- A group of commas does not go on behind a comma with whitespace behind it.
theorem not_readsItems_of_group (hl : l.close = .group .comma) (hv : l.convention = .comma)
    (hc : c.kind = .comma) (hb : kind bs = .whitespace) :
    ¬ReadsItems inner l last (c :: bs) vs us := by
  intro h
  cases h with
  | ends he         => simp [kind, hc, Level.endsAt, Level.groupEndsAt, hl, Kind.isClosing,
      Kind.opening?, Convention.oppositeDelimiter?] at he
  | closes hk       => simp [hc, Kind.isClosing, Kind.opening?] at hk
  | delimiter _ hd _ h =>
    obtain rfl := Level.eq_ready_of_comma (hc ▸ hd)
    rw [hl] at h
    exact not_readsItems_of_whitespace hb h
  | regroup _ hd _  =>
    rw [hc] at hd
    simp only [Level.delimiter, hv] at hd
    split at hd <;> cases hd
  | lacks _ _ hk    => simp [hc, Kind.isElement] at hk
  | item _ _ hr     => exact (kind_ne_of_begins hr.begins).right.left hc

section

variable {c : Lexeme} {as bs : List Lexeme} (hc : c.kind = .comma)
  (hs : skipWhitespace bs = skipWhitespace as) (ha : kind as ≠ .whitespace)
  (hb : kind bs = .whitespace)

-- The places are looked for in the row with `as`, and the row with `bs` is read to its end.
theorem Followed.not_group (hs : skipWhitespace bs = skipWhitespace as) (hc : c.kind = .comma)
    (hb : kind bs = .whitespace) (h : Followed c as bs (.items d l last (c :: as))) :
    l.close ≠ .group .comma := by
  intro hl
  obtain ⟨hv, ts', vs, us, hr, h⟩ := h
  cases hr with
  | behind hr =>
    have := (hs ▸ hr).length_le
    have := length_skipWhitespace_le as
    simp only [List.length_cons] at *
    omega
  | comma => exact not_readsItems_of_group hl (hv hl) hc hb h
  | cons hl _ _ hr => exact Nat.lt_irrefl _ (hr.length_lt hl)

include hc

theorem followed_of_yields (h : (nested (d + 1) what opener ts').Yields v us)
    (hr : Respaced c bs as ts' ts) : Followed c as bs (what.place d ts) := by
  obtain ⟨_, hd, h⟩ := nested_yields_iff.mp h
  cases hd
  cases h with
  | list h  => exact ⟨nofun, _, _, _, hr.skipWhitespace hc, h.items⟩
  | group h => exact ⟨fun hl => by cases hl; rfl, _, _, _, hr.skipWhitespace hc, h.items⟩
  | hash h  => exact ⟨_, _, _, hr, h⟩

theorem followed_of_readsAssigned (h : ReadsAssigned (nested (d + 1)) ts' v us)
    (hr : Respaced c bs as ts' ts) (hn : AssignsNested ts what ws) :
    Followed c as bs (what.place d ws) := by
  cases hn with
  | hash ht =>
    obtain ⟨vs, rfl, hr | ⟨rfl, _⟩⟩ := hr.uncons_right
    case inr => simp [ht] at hc
    case inl =>
      cases h with
      | hash _ h   => exact followed_of_yields hc h hr
      | list hn _  => contradiction
      | element he => simp [ht, Kind.isElement] at he
  | list hn ht =>
    obtain ⟨vs, rfl, hr | ⟨rfl, _⟩⟩ := hr.uncons_right
    case inr => simp [hc, Kind.closing?] at ht
    case inl =>
      cases h with
      | hash ht _   => contradiction
      | list _ ht' h =>
        cases ht.symm.trans ht'
        exact followed_of_yields hc h hr
      | element he  => cases ht.symm.trans (Kind.closing?_of_isElement he)

theorem followed_of_readsAssignment (h : ReadsAssignment (nested (d + 1)) ts' e us)
    (hr : Respaced c bs as ts' ts) (ha : assignment? ts = some a)
    (hn : AssignsNested a.value what ws) : Followed c as bs (what.place d ws) := by
  obtain ⟨hk, hv⟩ := h
  rcases hr.assignment? hc with ⟨hk', _⟩ | ⟨_, _, hk', hb, _, hr⟩
  case inl => cases hk.symm.trans hk'
  case inr =>
    cases hk.symm.trans hk'
    cases ha.symm.trans hb
    exact followed_of_readsAssigned hc hv hr hn

theorem followed_of_readsItem (h : ReadsItem (nested (d + 1)) (t :: ts') v us)
    (hr : Respaced c bs as ts' ts) (hr' : Respaced c bs as (t :: ts') (t :: ts))
    (hn : BeginsNested (t :: ts) what ws) : Followed c as bs (what.place d ws) := by
  have hi := item_yields_iff.mpr h
  cases hn with
  | hash ht =>
    simp only [item, role, kind, ht] at hi
    exact followed_of_yields hc hi hr
  | array ht =>
    simp only [item, role, kind, ht] at hi
    exact followed_of_yields hc hi hr
  | assignment ha hn =>
    rcases hr'.assignment? hc with ⟨_, hk⟩ | ⟨_, _, hb, hk, _⟩
    case inl => cases ha.symm.trans hk
    case inr =>
      have he := isElement_of_assignment? ha
      rw [item_of_isElement he, hb] at hi
      obtain ⟨⟨_, _⟩, hi, _⟩ := Outcome.yields_mapValue.mp hi
      exact followed_of_readsAssignment hc (assignment_yields_iff.mp hi) hr' ha hn

include hs ha hb

-- What the row with `bs` is read as, the other one is read as alike.
theorem Followed.next (h : Followed c as bs p) (hn : Next p q) : Followed c as bs q := by
  have hal (d) : ReadsAlike c bs as (fun _ => True) d :=
    nested_readsAlike hc hs (fun _ _ => trivial) (fun _ _ => hb) d
  cases hn with
  | delimiter he hd ht =>
    obtain ⟨hv, ts', vs, us, hr, h⟩ := h
    obtain ⟨_, ts', rfl, hr, hw, ht'⟩ := hr.exists_tail hs hb ha
    have hv hl := Level.convention_of_delimiter hd (hv (Level.close_of_delimiter hd ▸ hl))
    have h := h.of_delimiter he hd ht
    refine ⟨hv, ts', vs, us, hr, ?_⟩
    rcases ht' with rfl | ⟨rfl, hk⟩
    case inl => exact h
    case inr =>
      obtain rfl := Level.eq_ready_of_comma (hc ▸ hd)
      exact (h.of_ready hw fun _ => hk).left
  | group he hd ht =>
    obtain ⟨_, ts', vs, us, hr, h⟩ := h
    obtain ⟨_, ts', rfl, hr, hw, _⟩ := hr.exists_tail hs hb ha
    obtain ⟨_, _, hg, _⟩ := h.of_regroup he hd ht
    exact followed_of_yields hc (nested_yields_of_skipWhitespace_eq hg hw) hr
  | regroup he hd ht hg =>
    obtain ⟨hv, ts', vs, us, hr, h⟩ := h
    obtain ⟨_, ts', rfl, hr, hw, _⟩ := hr.exists_tail hs hb ha
    have hv hl := Level.convention_of_delimiter hd (hv (Level.close_of_delimiter hd ▸ hl))
    obtain ⟨_, _, hg', h⟩ := h.of_regroup he hd ht
    have hg' := nested_yields_of_skipWhitespace_eq hg' hw
    obtain ⟨us', hg', hu⟩ := hal _ _ _ _ _ _ _ hg' hr fun _ _ => trivial
    obtain ⟨rfl, rfl⟩ := hg.unique hg'
    exact ⟨hv, _, _, _, hu, h⟩
  | opening he hi hn =>
    obtain ⟨_, ts', vs, us, hr, h⟩ := h
    obtain ⟨ts', rfl, hr' | ⟨rfl, _⟩⟩ := hr.uncons_right
    case inr => exact absurd hc (kind_ne_of_begins hn.begins).right.left
    case inl =>
      obtain ⟨_, _, h, _⟩ := h.of_item he hi hn.begins
      exact followed_of_readsItem hc h hr' hr hn
  | item he hi h' =>
    obtain ⟨hv, ts', vs, us, hr, h⟩ := h
    have hv hl := Level.convention_of_item hi (hv (Level.close_of_item hi ▸ hl))
    obtain ⟨ts', rfl, _⟩ := hr.uncons_right
    obtain ⟨_, _, h, hi⟩ := h.of_item he hi h'.begins
    obtain ⟨us', h, hu⟩ := h.respaced hc (hal _) hr fun _ _ => trivial
    obtain ⟨rfl, rfl⟩ := h'.unique h
    exact ⟨hv, _, _, _, hu.skipPadding hc, hi⟩
  | comma hw ht =>
    obtain ⟨ts', fs, us, hr, h⟩ := h
    have hr := hw ▸ hr.skipWhitespace hc
    obtain ⟨_, ts', hw', hr, hw, _⟩ := hr.exists_tail hs hb ha
    cases h with
    | close hx hk =>
      cases hw'.symm.trans hx
      cases ht.symm.trans hk
    | comma hx _ h =>
      cases hw'.symm.trans hx
      exact ⟨_, _, _, hr, h.of_skipWhitespace_eq hw⟩
  | value hk hn =>
    obtain ⟨ts', fs, us, hr, h⟩ := h
    cases h with
    | entry h _ => exact followed_of_readsAssignment hc h (hr.skipWhitespace hc) hk hn
  | entry h' =>
    obtain ⟨ts', fs, us, hr, h⟩ := h
    cases h with
    | entry h hes =>
      obtain ⟨us', h, hu⟩ := h.respaced hc (hal _) (hr.skipWhitespace hc) fun _ _ _ => trivial
      obtain ⟨he, rfl⟩ := h'.unique h
      cases he
      exact ⟨_, _, _, hu, hes⟩

theorem Followed.visits (h : Followed c as bs p) (hv : Visits p q) : Followed c as bs q := by
  induction hv
  case refl       => exact h
  case tail hn hi => exact hi.next hc hs ha hb hn

end

theorem Respaced.of_append {front : List Lexeme}
    (hf : ∀ t ∈ front, t.kind ≠ .escape ∧ t.kind ≠ .lParen) (c : Lexeme) (as bs : List Lexeme) :
    Respaced c as bs (front ++ c :: as) (front ++ c :: bs) := by
  induction front
  case nil => exact .comma
  case cons t front hi =>
    rw [List.forall_mem_cons] at hf
    have hl : as.length < (front ++ c :: as).length := by
      rw [List.length_append, List.length_cons]
      omega
    exact .cons hl hf.left.left hf.left.right (hi hf.right)

-- The place at the start of a text.
def Place.top (depth : Nat) (ts : List Lexeme) : Place :=
  .items depth (.start .endOfText) [] (skipWhitespace ts)

-- The comma in front of `as` comes behind an item of a group of commas.
def InCommaGroup (depth : Nat) (ts : List Lexeme) (c : Lexeme) (as : List Lexeme) : Prop :=
  ∃ d l last, Visits (.top depth ts) (.items d l last (c :: as)) ∧ l.close = .group .comma

-- Whitespace behind a comma changes nothing, unless it is the first there in a group of commas.
-- That is refused.
theorem readsLevel_respaced_iff (hf : ∀ t ∈ front, t.kind ≠ .escape ∧ t.kind ≠ .lParen)
    (hc : c.kind = .comma) (hs : skipWhitespace bs = skipWhitespace as)
    (hb : kind bs = .whitespace) :
    ReadsLevel (nested m) .endOfText none (front ++ c :: bs) vs [] ↔
      ReadsLevel (nested m) .endOfText none (front ++ c :: as) vs [] ∧
        (kind as = .whitespace ∨ ¬InCommaGroup m (front ++ c :: as) c as) := by
  have hr := Respaced.of_append hf c
  have hnil {as bs us} (h : Respaced c as bs [] us) : us = [] := by cases h; rfl
  constructor
  case mp =>
    intro h
    constructor
    case left =>
      have ha := nested_readsAlike hc hs (G := fun _ => True) (fun _ _ => trivial) (fun _ _ => hb) m
      obtain ⟨us, h, hu⟩ :=
        h.respaced hc hs (fun _ _ => trivial) (fun _ _ => hb) ha (hr bs as) trivial
      exact hnil hu ▸ h
    case right =>
      by_cases ha : kind as = .whitespace
      case pos => exact .inl ha
      case neg =>
        refine .inr fun ⟨d, l, last, hv, hl⟩ => ?_
        have h : Followed c as bs (.top m (front ++ c :: as)) :=
          ⟨nofun, _, _, _, (hr bs as).skipWhitespace hc, h.items⟩
        exact (h.visits hc hs ha hb hv).not_group hs hc hb hl
  case mpr =>
    rintro ⟨h, hg⟩
    let G (p : Place) := kind as = .whitespace ∨
      ∀ d l last, Visits p (.items d l last (c :: as)) → l.close ≠ .group .comma
    have hG {p q} (h : G p) (hn : Next p q) : G q :=
      h.imp_right fun h d l last hv => h d l last (.head hn hv)
    have hw {d l last} (h : G (.items d l last (c :: as))) (hl : l.close = .group .comma) :
        kind as = .whitespace :=
      h.resolve_right fun h => h d l last .refl hl
    have hg : G (.top m (front ++ c :: as)) :=
      hg.imp_right fun hg d l last hv hl => hg ⟨d, l, last, hv, hl⟩
    have ha := nested_readsAlike hc hs.symm hG hw m
    obtain ⟨us, h, hu⟩ := h.respaced hc hs.symm hG hw ha (hr as bs) hg
    exact hnil hu ▸ h

end Parser

end ArgTree
