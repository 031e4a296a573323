import ArgTree.Proofs.Parser.Places
import ArgTree.Proofs.Syntax.Boundaries

namespace ArgTree

open Lookahead

namespace Level

theorem eq_ready_of_comma {l l' : Level} (h : l.delimiter .comma = .ok (.proceed, l')) :
    l' = .ready l.close .comma := by
  cases hc : l.convention <;> simp only [delimiter, hc] at h <;> split at h <;> simp at h <;>
    simp [← h, delimited, ready, hc]

theorem endsAt_whitespace {close : Close} (h : close ≠ .group .comma) :
    (ready close .comma).endsAt .whitespace = false := by
  cases close
  case group c => cases c <;> first | rfl | contradiction
  all_goals rfl

end Level

namespace Parser

variable {inner : Inner}

-- Behind a comma, whitespace changes nothing.
theorem readsItems_ready_cons_iff (hc : close ≠ .group .comma) (ht : t.kind = .whitespace) :
    ReadsItems inner (.ready close .comma) last (t :: ts) vs us ↔
      ReadsItems inner (.ready close .comma) last ts vs us := by
  have he : (Level.ready close .comma).endsAt t.kind = false := ht ▸ Level.endsAt_whitespace hc
  have hd : (Level.ready close .comma).delimiter t.kind = .ok (.proceed, .ready close .comma) := by
    rw [ht]
    rfl
  constructor
  case mp =>
    intro h
    cases h with
    | ends he'            => exact absurd he' (by simp [kind, he])
    | closes hk           => simp [ht, Kind.isClosing, Kind.opening?] at hk
    | delimiter _ hd' _ h => cases hd.symm.trans hd'; exact h
    | regroup _ hd' _     => cases hd.symm.trans hd'
    | lacks _ _ hk        => simp [ht, Kind.isElement] at hk
    | item _ _ hr         => exact absurd ht (kind_ne_of_begins hr.begins).left
  case mpr => exact fun h => .delimiter he hd (.inl ht) h

theorem readsItems_ready_iff (hc : close ≠ .group .comma) :
    ReadsItems inner (.ready close .comma) last (skipWhitespace ts) vs us ↔
      ReadsItems inner (.ready close .comma) last ts vs us :=
  skipWhitespace_induction (P := fun ws =>
    ReadsItems inner (.ready close .comma) last (skipWhitespace ts) vs us ↔
      ReadsItems inner (.ready close .comma) last ws vs us)
    Iff.rfl fun _ _ ht hi => hi.trans (readsItems_ready_cons_iff hc ht).symm

-- Only in a group of commas it is the end, where an item is missing.
theorem not_readsItems_of_whitespace (h : kind ts = .whitespace) :
    ¬ReadsItems inner (.ready (.group .comma) .comma) last ts vs us := by
  have he : (Level.ready (.group .comma) .comma).endsAt (kind ts) = true := by rw [h]; rfl
  intro hr
  cases hr with
  | ends _ hd           => contradiction
  | closes _ hc _       => contradiction
  | delimiter he' _ _ _ => exact absurd (he.symm.trans he') nofun
  | regroup he' _ _ _ _ => exact absurd (he.symm.trans he') nofun
  | lacks he' _ _ _     => exact absurd (he.symm.trans he') nofun
  | item he' _ _ _      => exact absurd (he.symm.trans he') nofun

-- So the whitespace can be other whitespace, if the level is no such group or there is some anyway.
theorem ReadsItems.of_ready (h : ReadsItems inner (.ready close .comma) last ts vs us)
    (hs : skipWhitespace ts = skipWhitespace ts')
    (hc : close = .group .comma → kind ts = .whitespace) :
    ReadsItems inner (.ready close .comma) last ts' vs us ∧
      (LeavesSuffix inner → us <:+ skipWhitespace ts) := by
  have hc : close ≠ .group .comma := by
    rintro rfl
    exact not_readsItems_of_whitespace (hc rfl) h
  have h := (readsItems_ready_iff hc).mpr h
  exact ⟨(readsItems_ready_iff hc).mp (hs ▸ h), h.suffix⟩

-- Two rows that differ in the whitespace behind a comma `c`, with nothing in front of it that could
-- make it text: `as` is behind it in one row and `bs` in the other one. The rests of both rows that
-- are read at the same time are alike.
inductive Respaced (c : Lexeme) (as bs : List Lexeme) : List Lexeme → List Lexeme → Prop
  | behind : ts <:+ skipWhitespace as → Respaced c as bs ts ts
  | comma  : Respaced c as bs (c :: as) (c :: bs)
  | cons {t : Lexeme} {ts us : List Lexeme} :
             as.length < ts.length → t.kind ≠ .escape → t.kind ≠ .lParen →
             Respaced c as bs ts us → Respaced c as bs (t :: ts) (t :: us)

namespace Respaced

variable {c : Lexeme} {as bs : List Lexeme}

theorem kind_eq (h : Respaced c as bs ts us) : kind ts = kind us := by
  cases h <;> rfl

theorem length_lt (h : Respaced c as bs ts us) (hl : as.length < ts.length) :
    bs.length < us.length := by
  induction h
  case behind hs =>
    have := (hs.trans (skipWhitespace_suffix as)).length_le
    omega
  case comma => simp
  case cons ht _ _ _ hi =>
    have := hi ht
    simp only [List.length_cons]
    omega

theorem uncons_left (h : Respaced c as bs (t :: ts) us) :
    ∃ vs, us = t :: vs ∧ (Respaced c as bs ts vs ∨ t = c ∧ ts = as ∧ vs = bs) := by
  cases h with
  | behind h     => exact ⟨ts, rfl, .inl (.behind ((List.suffix_cons ..).trans h))⟩
  | comma        => exact ⟨bs, rfl, .inr ⟨rfl, rfl, rfl⟩⟩
  | cons _ _ _ h => exact ⟨_, rfl, .inl h⟩

theorem uncons_right (h : Respaced c as bs us (t :: ts)) :
    ∃ vs, us = t :: vs ∧ (Respaced c as bs vs ts ∨ t = c ∧ vs = as ∧ ts = bs) := by
  cases h with
  | behind h     => exact ⟨ts, rfl, .inl (.behind ((List.suffix_cons ..).trans h))⟩
  | comma        => exact ⟨as, rfl, .inr ⟨rfl, rfl, rfl⟩⟩
  | cons _ _ _ h => exact ⟨_, rfl, .inl h⟩

-- Where the second row has no whitespace behind the comma, it is the same as the first one there
-- but for the whitespace at the front.
theorem exists_tail (h : Respaced c as bs us (t :: ts))
    (hs : skipWhitespace as = skipWhitespace bs) (ha : kind as = .whitespace)
    (hb : kind bs ≠ .whitespace) :
    ∃ vs ws, us = t :: vs ∧ Respaced c as bs ws ts ∧ skipWhitespace vs = skipWhitespace ws ∧
      (vs = ws ∨ t = c ∧ kind vs = .whitespace) := by
  obtain ⟨vs, rfl, h | ⟨rfl, rfl, rfl⟩⟩ := h.uncons_right
  case inl => exact ⟨vs, vs, rfl, h, rfl, .inl rfl⟩
  case inr =>
    have hw : skipWhitespace ts = ts := skipWhitespace_of_kind hb
    have hr : Respaced t vs ts ts ts := .behind (by rw [hs, hw])
    exact ⟨vs, ts, rfl, hr, hs, .inr ⟨rfl, ha⟩⟩

variable (hc : c.kind = .comma)

include hc

theorem uncons (h : Respaced c as bs (t :: ts) us) (ht : t.kind ≠ .comma) :
    ∃ vs, us = t :: vs ∧ Respaced c as bs ts vs := by
  obtain ⟨vs, hu, h | ⟨rfl, _⟩⟩ := h.uncons_left
  case inl => exact ⟨vs, hu, h⟩
  case inr => contradiction

-- What makes a comma text does not stand in front of it.
theorem eq_of_text (h : Respaced c as bs (t :: ts) us) (ht : t.kind = .escape ∨ t.kind = .lParen) :
    us = t :: ts ∧ t :: ts <:+ Lookahead.skipWhitespace as := by
  cases h with
  | behind h       => exact ⟨rfl, h⟩
  | comma          => simp [hc] at ht
  | cons _ he hp _ => exact absurd ht (by simp [he, hp])

theorem skipWhitespace (h : Respaced c as bs ts us) :
    Respaced c as bs (skipWhitespace ts) (skipWhitespace us) := by
  induction h
  case behind h => exact .behind ((skipWhitespace_suffix _).trans h)
  case comma =>
    have hw : c.kind ≠ .whitespace := by simp [hc]
    rw [skipWhitespace_cons_of_ne hw, skipWhitespace_cons_of_ne hw]
    exact .comma
  case cons t ts us hl he hp h hi =>
    by_cases hw : t.kind = .whitespace
    case pos => rwa [skipWhitespace_cons hw, skipWhitespace_cons hw]
    case neg =>
      rw [skipWhitespace_cons_of_ne hw, skipWhitespace_cons_of_ne hw]
      exact .cons hl he hp h

theorem skipPadding (h : Respaced c as bs ts us) :
    Respaced c as bs (skipPadding ts) (skipPadding us) := by
  have hs := h.skipWhitespace hc
  simp only [Lookahead.skipPadding, hs.kind_eq]
  split
  case isTrue  => exact hs
  case isFalse => exact h

-- No assignment reaches over a comma.
theorem assignment? (h : Respaced c as bs ts us) :
    Lookahead.assignment? ts = none ∧ Lookahead.assignment? us = none ∨
      ∃ a b, Lookahead.assignment? ts = some a ∧ Lookahead.assignment? us = some b ∧
        a.key = b.key ∧ Respaced c as bs a.value b.value := by
  cases h with
  | behind h =>
    cases ha : Lookahead.assignment? ts
    case none   => exact .inl ⟨rfl, rfl⟩
    case some a =>
      have hv := (suffix_of_assignment? ha).left.trans h
      exact .inr ⟨a, a, rfl, rfl, rfl, .behind hv⟩
  | comma =>
    have he : ¬c.kind.isElement := by simp [hc, Kind.isElement]
    exact .inl ⟨assignment?_of_not_isElement he, assignment?_of_not_isElement he⟩
  | @cons t ts us _ _ _ h =>
    have hs := h.skipWhitespace hc
    refine assignment?_eq_none_or_some hs.kind_eq (fun {e es} hes he => ?_) t
    obtain ⟨fs, hfs, h⟩ := (hes ▸ hs).uncons hc (by simp [he])
    have hv := h.skipWhitespace hc
    exact ⟨fs, hfs, hv.kind_eq, hv⟩

end Respaced

theorem ReadsLevel.of_skipWhitespace_eq (h : ReadsLevel inner close first ts vs us)
    (hs : skipWhitespace ts = skipWhitespace ts') : ReadsLevel inner close first ts' vs us := by
  obtain ⟨hm, hc, hi⟩ := h
  rw [hs] at hm hc hi
  exact ⟨hm, hc, hi⟩

-- What a hash needs behind a comma is an entry.
theorem ReadsEntries.of_skipWhitespace_eq (h : ReadsEntries inner true es ts fs us)
    (hs : skipWhitespace ts = skipWhitespace ts') : ReadsEntries inner true es ts' fs us := by
  cases h with
  | entry ha hr => exact .entry (hs ▸ ha) hr

theorem nested_yields_of_skipWhitespace_eq (h : (nested d what opener ts).Yields v us)
    (hs : skipWhitespace ts = skipWhitespace ts') : (nested d what opener ts').Yields v us := by
  obtain ⟨d, hd, hr⟩ := nested_yields_iff.mp h
  refine nested_yields_iff.mpr ⟨d, hd, ?_⟩
  cases hr with
  | list h  => exact .list (h.of_skipWhitespace_eq hs)
  | group h => exact .group (h.of_skipWhitespace_eq hs)
  | hash h  => exact .hash (h.of_skipWhitespace_eq hs)

section

variable {c : Lexeme} {as bs : List Lexeme} {G : Place → Prop} {d : Nat} (hc : c.kind = .comma)
  (hs : skipWhitespace as = skipWhitespace bs) (hn : ∀ {p q}, G p → Next p q → G q)
  (hg : ∀ {d l last}, G (.items d l last (c :: as)) → l.close = .group .comma →
    kind as = .whitespace)

-- What is nested is read in both rows alike, if the condition `G` holds where it begins.
def ReadsAlike (c : Lexeme) (as bs : List Lexeme) (G : Place → Prop) (depth : Nat) : Prop :=
  ∀ what opener ts v us ts', (nested depth what opener ts).Yields v us →
    Respaced c as bs ts ts' → (∀ d, depth = d + 1 → G (what.place d ts)) →
    ∃ us', (nested depth what opener ts').Yields v us' ∧ Respaced c as bs us us'

variable (ha : ReadsAlike c as bs G d)

include hc ha

theorem ReadsAssigned.respaced (h : ReadsAssigned (nested d) ts v us)
    (hr : Respaced c as bs ts ts')
    (hG : ∀ {what us e}, AssignsNested ts what us → d = e + 1 → G (what.place e us)) :
    ∃ us', ReadsAssigned (nested d) ts' v us' ∧ Respaced c as bs us us' := by
  cases h with
  | hash ht h =>
    obtain ⟨ts', rfl, hr'⟩ := hr.uncons hc (by simp [ht])
    obtain ⟨us', h', hu⟩ := ha _ _ _ _ _ _ h hr' fun _ => hG (.hash ht)
    exact ⟨us', .hash ht h', hu⟩
  | list hn ht h =>
    obtain ⟨ts', rfl, hr'⟩ := hr.uncons hc fun hk => by simp [hk, Kind.closing?] at ht
    obtain ⟨us', h', hu⟩ := ha _ _ _ _ _ _ h hr' fun _ => hG (.list hn ht)
    exact ⟨us', .list hn ht h', hu⟩
  | element ht =>
    obtain ⟨ts', rfl, hr'⟩ := hr.uncons hc (kind_ne_of_begins (.inr (.inr ht))).right.left
    exact ⟨ts', .element ht, hr'⟩

theorem ReadsAssignment.respaced (h : ReadsAssignment (nested d) ts e us)
    (hr : Respaced c as bs ts ts')
    (hG : ∀ {a what us e}, assignment? ts = some a → AssignsNested a.value what us → d = e + 1 →
      G (what.place e us)) :
    ∃ us', ReadsAssignment (nested d) ts' e us' ∧ Respaced c as bs us us' := by
  obtain ⟨hk, hv⟩ := h
  rcases hr.assignment? hc with ⟨hk', _⟩ | ⟨a, b, hk', hb, he, hr⟩
  case inl => cases hk.symm.trans hk'
  case inr =>
    cases hk.symm.trans hk'
    obtain ⟨us', hv, hr⟩ := hv.respaced hc ha hr (hG hk)
    exact ⟨us', he ▸ .intro hb hv, hr⟩

theorem ReadsItem.respaced (h : ReadsItem (nested d) (t :: ts) v us)
    (hr : Respaced c as bs (t :: ts) ts')
    (hG : ∀ {what us e}, BeginsNested (t :: ts) what us → d = e + 1 → G (what.place e us)) :
    ∃ us', ReadsItem (nested d) ts' v us' ∧ Respaced c as bs us us' := by
  have ⟨_, hm, _, _⟩ := kind_ne_of_begins h.begins
  have hu := h.suffix (nested_leavesSuffix d)
  generalize hx : t :: ts = xs at h hG hr hu
  cases h with
  | escape ht h =>
    obtain ⟨rfl, hx⟩ := hr.eq_of_text hc (.inl ht)
    exact ⟨us, .escape ht h, .behind (hu.trans hx)⟩
  | verbatim ht hb hk =>
    obtain ⟨rfl, hx⟩ := hr.eq_of_text hc (.inr ht)
    exact ⟨us, .verbatim ht hb hk, .behind (hu.trans hx)⟩
  | hash ht h =>
    cases hx
    obtain ⟨ts', rfl, hr'⟩ := hr.uncons hc hm
    obtain ⟨us', h', hu⟩ := ha _ _ _ _ _ _ h hr' fun _ => hG (.hash ht)
    exact ⟨us', .hash ht h', hu⟩
  | array ht h =>
    cases hx
    obtain ⟨ts', rfl, hr'⟩ := hr.uncons hc hm
    obtain ⟨us', h', hu⟩ := ha _ _ _ _ _ _ h hr' fun _ => hG (.array ht)
    exact ⟨us', .array ht h', hu⟩
  | assignment h =>
    obtain ⟨us', h, hr⟩ := h.respaced hc ha hr fun hk hn => hG (.assignment hk hn)
    exact ⟨us', .assignment h, hr⟩
  | element ht h =>
    cases hx
    rcases hr.assignment? hc with ⟨_, hb⟩ | ⟨_, _, hk, _⟩
    case inl =>
      obtain ⟨ts', rfl, hr'⟩ := hr.uncons hc hm
      exact ⟨ts', .element ht hb, hr'⟩
    case inr => cases h.symm.trans hk

include hs hn

theorem ReadsEntries.respaced (h : ReadsEntries (nested d) ready es ts fs us)
    (hr : Respaced c as bs ts ts') (hG : G (.entries d ready es ts)) :
    ∃ us', ReadsEntries (nested d) ready es ts' fs us' ∧ Respaced c as bs us us' := by
  induction h generalizing ts'
  case close hw ht =>
    have hr := hw ▸ hr.skipWhitespace hc
    obtain ⟨us', hw', hr⟩ := hr.uncons hc (by simp [ht])
    exact ⟨us', .close hw' ht, hr⟩
  case comma hw ht h ih =>
    have hG := hn hG (.comma hw ht)
    have hr := hw ▸ hr.skipWhitespace hc
    obtain ⟨us', hx, hr | ⟨rfl, rfl, rfl⟩⟩ := hr.uncons_left
    case inl =>
      obtain ⟨us', h, hr⟩ := ih hr hG
      exact ⟨us', .comma hx ht h, hr⟩
    case inr =>
      have hw := h.of_skipWhitespace_eq (skipWhitespace_idem _).symm
      have hu := hw.suffix (nested_leavesSuffix d)
      exact ⟨_, .comma hx ht (h.of_skipWhitespace_eq hs), .behind hu⟩
  case entry h _ ih =>
    obtain ⟨us', h', hr'⟩ := h.respaced hc ha (hr.skipWhitespace hc) fun hk hv he => by
      subst he
      exact hn hG (.value hk hv)
    obtain ⟨vs', h'', hr''⟩ := ih hr' (hn hG (.entry h))
    exact ⟨vs', .entry h' h'', hr''⟩

include hg

theorem ReadsItems.respaced (h : ReadsItems (nested d) l last ts vs us)
    (hr : Respaced c as bs ts ts') (hG : G (.items d l last ts)) :
    ∃ us', ReadsItems (nested d) l last ts' vs us' ∧ Respaced c as bs us us' := by
  induction h generalizing ts'
  case ends he hd => exact ⟨ts', .ends (hr.kind_eq ▸ he) hd, hr⟩
  case closes ht hc' hd =>
    obtain ⟨us', rfl, hr'⟩ := hr.uncons hc fun hk => by
      simp [hk, Kind.isClosing, Kind.opening?] at ht
    exact ⟨us', .closes ht hc' hd, hr'⟩
  case delimiter he hd ht h ih =>
    have hG' := hn hG (.delimiter he hd ht)
    obtain ⟨us', rfl, hr | ⟨rfl, rfl, rfl⟩⟩ := hr.uncons_left
    case inl =>
      obtain ⟨us', h, hr⟩ := ih hr hG'
      exact ⟨us', .delimiter he hd ht h, hr⟩
    case inr =>
      obtain rfl := Level.eq_ready_of_comma (hc ▸ hd)
      obtain ⟨h, hu⟩ := h.of_ready hs (hg hG)
      exact ⟨_, .delimiter he hd ht h, .behind (hu (nested_leavesSuffix d))⟩
  case regroup he hd ht hg' h ih =>
    have hG' := hn hG (.regroup he hd ht hg')
    obtain ⟨us', rfl, hr | ⟨rfl, rfl, rfl⟩⟩ := hr.uncons_left
    case inl =>
      obtain ⟨us', hg'', hr⟩ := ha _ _ _ _ _ _ hg' hr fun e hd' => by
        subst hd'
        exact hn hG (.group he hd ht)
      obtain ⟨ws', h, hr⟩ := ih hr hG'
      exact ⟨ws', .regroup he hd ht hg'' h, hr⟩
    case inr =>
      have hg'' := nested_yields_of_skipWhitespace_eq hg' (skipWhitespace_idem _).symm
      have hu := (h.suffix (nested_leavesSuffix d)).trans (nested_leavesSuffix d _ _ _ _ _ hg'')
      exact ⟨_, .regroup he hd ht (nested_yields_of_skipWhitespace_eq hg' hs) h, .behind hu⟩
  case lacks he hit ht hb =>
    obtain ⟨_, hm, _, _⟩ := kind_ne_of_begins (ht.imp_right .inr)
    obtain ⟨us', rfl, _⟩ := hr.uncons hc hm
    exact ⟨_, .lacks he hit ht hb, hr⟩
  case item he hit h hi ih =>
    obtain ⟨_, hm, _, _⟩ := kind_ne_of_begins h.begins
    obtain ⟨us', h', hr'⟩ := h.respaced hc ha hr fun hb hd => by
      subst hd
      exact hn hG (.opening he hit hb)
    obtain ⟨ts', rfl, _⟩ := hr.uncons hc hm
    obtain ⟨ws', h'', hr''⟩ := ih (hr'.skipPadding hc) (hn hG (.item he hit h))
    exact ⟨ws', .item he hit h' h'', hr''⟩

omit ha in
theorem ReadsLevel.respaced (ha : ReadsAlike c as bs G d)
    (h : ReadsLevel (nested d) close first ts vs us) (hr : Respaced c as bs ts ts')
    (hG : G (.items d (.start close) first.toList (skipWhitespace ts))) :
    ∃ us', ReadsLevel (nested d) close first ts' vs us' ∧ Respaced c as bs us us' := by
  have hr := hr.skipWhitespace hc
  obtain ⟨hm, hcl, hi⟩ := h
  obtain ⟨us', hi, hu⟩ := hi.respaced hc hs hn hg ha hr hG
  exact ⟨us', ⟨hr.kind_eq ▸ hm, hr.kind_eq ▸ hcl, hi⟩, hu⟩

omit ha in
theorem nested_readsAlike (depth : Nat) : ReadsAlike c as bs G depth := by
  induction depth
  case zero => exact fun _ _ _ _ _ _ h => absurd h Outcome.yields_fail
  case succ d hi =>
    intro what opener ts v us ts' h hr hG
    obtain ⟨_, hd, h⟩ := nested_yields_iff.mp h
    cases hd
    have hG := hG d rfl
    cases h with
    | list h =>
      obtain ⟨us', h, hu⟩ := h.respaced hc hs hn hg hi hr hG
      exact ⟨us', nested_yields_iff.mpr ⟨d, rfl, .list h⟩, hu⟩
    | group h =>
      obtain ⟨us', h, hu⟩ := h.respaced hc hs hn hg hi hr hG
      exact ⟨us', nested_yields_iff.mpr ⟨d, rfl, .group h⟩, hu⟩
    | hash h =>
      obtain ⟨us', h, hu⟩ := h.respaced hc hs hn hi hr hG
      exact ⟨us', nested_yields_iff.mpr ⟨d, rfl, .hash h⟩, hu⟩

end

end Parser

end ArgTree
