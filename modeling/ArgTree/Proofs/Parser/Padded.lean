import ArgTree.Proofs.Parser.Respaced
import ArgTree.Proofs.Syntax.Completeness

namespace ArgTree

open Lookahead Syntax

-- What whitespace pads in front of it.
def Kind.padsBefore (k : Kind) : Prop :=
  k = .comma ∨ k = .endOfText ∨ k.isClosing ∨ k = .equals

-- What whitespace pads behind it, besides a comma.
def Kind.padsBehind (k : Kind) : Prop :=
  k = .lCurly ∨ k = .lSquare ∨ k = .equals

namespace Kind

theorem not_padsBefore_of_begins {k : Kind} (h : k.begins) : ¬k.padsBefore := by
  have ⟨_, hm, hc, he⟩ := Parser.kind_ne_of_begins h
  simp [padsBefore, hm, hc, he, Syntax.Kind.ne_equals_of_begins h]

theorem not_padsBehind_of_isElement {k : Kind} (h : k.isElement) : ¬k.padsBehind := by
  rintro (rfl | rfl | rfl) <;> contradiction

theorem not_padsBehind_of_isClosing {k : Kind} (h : k.isClosing) : ¬k.padsBehind := by
  rintro (rfl | rfl | rfl) <;> contradiction

theorem not_padsBehind_of_delimits {k : Kind} (h : k = .whitespace ∨ k = .comma) :
    ¬k.padsBehind := by
  rcases h with rfl | rfl <;> simp [padsBehind]

end Kind

namespace Level

-- The last thing read is a delimiter.
def Awaits (l : Level) : Prop :=
  l.haveItem = false ∧ l.haveDelimiter = true

theorem start_awaits (c : Convention) : (start (.group c)).Awaits :=
  ⟨rfl, rfl⟩

theorem Awaits.ne_comma {l l' : Level} (h : l.Awaits) :
    l.delimiter .comma ≠ .ok (.proceed, l') := by
  obtain ⟨hi, hd⟩ := h
  cases hc : l.convention <;> simp [delimiter, hc, hi, hd]

end Level

namespace Parser

variable {inner : Inner}

-- Behind a delimiter there must be an item.
theorem ReadsItems.begins_of_awaits (h : ReadsItems inner l last ts vs us) (hl : l.Awaits) :
    (kind (skipWhitespace ts)).begins := by
  induction h
  case ends hd         => exact absurd (hd.symm.trans hl.right) nofun
  case closes hd       => exact absurd (hd.symm.trans hl.right) nofun
  case regroup hd _ _ _ _ => exact absurd (hl.left.symm.trans (Level.haveItem_of_regroup hd)) nofun
  case lacks hi _ _    => exact absurd (hl.left.symm.trans (Level.of_item_complete hi).left) nofun
  case delimiter hd ht _ ih =>
    rcases ht with ht | ht
    case inl =>
      rw [skipWhitespace_cons ht]
      exact ih (Level.delimited_of_delimiter hd)
    case inr => exact absurd (ht ▸ hd) hl.ne_comma
  case item hr _ _ =>
    rw [skipWhitespace_cons_of_ne (kind_ne_of_begins hr.begins).left]
    exact hr.begins

theorem begins_of_group (h : (nested d (.group c first) opener ts).Yields v us) :
    (kind (skipWhitespace ts)).begins := by
  obtain ⟨_, _, h⟩ := nested_yields_iff.mp h
  cases h with
  | group h => exact skipWhitespace_idem ts ▸ h.items.begins_of_awaits (Level.start_awaits c)

theorem skipWhitespace_skipPadding (ts : List Lexeme) :
    skipWhitespace (skipPadding ts) = skipWhitespace ts := by
  simp only [skipPadding]
  split
  case isTrue  => exact skipWhitespace_idem ts
  case isFalse => rfl

-- No level reads on behind an item in front of an `=`. If it ends there, the `=` is left.
theorem ReadsItems.free (h : ReadsItems (nested d) l last ts vs us) (hu : Free us) : Free ts := by
  have hb {ts} (h : (kind (skipWhitespace ts)).begins) : Free ts := Kind.ne_equals_of_begins h
  have hn {t ts} (h : t.kind ≠ .whitespace) (he : t.kind ≠ .equals) : Free (t :: ts) := by
    rwa [Free, skipWhitespace_cons_of_ne h]
  have hd {t ts} (h : t.kind = .whitespace ∨ t.kind = .comma) (ht : Free ts) : Free (t :: ts) := by
    rcases h with h | h
    case inl => rwa [Free, skipWhitespace_cons h]
    case inr => exact hn (by simp [h]) (by simp [h])
  induction h
  case ends                => exact hu
  case closes ht _ _ =>
    obtain ⟨hw, hm⟩ := Kind.ne_of_isClosing ht
    exact hn hw hm
  case delimiter ht _ ih   => exact hd ht (ih hu)
  case regroup ht hg _ _   => exact hd ht (hb (begins_of_group hg))
  case lacks               => exact hu
  case item hr _ _         =>
    exact hn (kind_ne_of_begins hr.begins).left (Kind.ne_equals_of_begins hr.begins)

theorem ReadsEntries.free (h : ReadsEntries inner false es ts fs us) : Free ts := by
  cases h with
  | close hs ht   => simp [Free, hs, kind, ht]
  | comma hs ht _ => simp [Free, hs, kind, ht]

-- Two rows that differ only in the whitespace at one place, where it pads what is in front of it or
-- behind it, and with nothing in front of the place that could make it text.
inductive Padded : List Lexeme → List Lexeme → Prop
  | refl   : Padded ts ts
  | before : (kind (skipWhitespace ts)).padsBefore → skipWhitespace ts = skipWhitespace us →
             Padded ts us
  | behind : t.kind.padsBehind → skipWhitespace ts = skipWhitespace us →
             Padded (t :: ts) (t :: us)
  | cons   : t.kind ≠ .escape → t.kind ≠ .lParen → Padded ts us → Padded (t :: ts) (t :: us)

namespace Padded

theorem symm (h : Padded ts us) : Padded us ts := by
  induction h
  case refl            => exact .refl
  case before hk hs    => exact .before (hs ▸ hk) hs.symm
  case behind ht hs    => exact .behind ht hs.symm
  case cons he hp _ ih => exact .cons he hp ih

theorem skipWhitespace (h : Padded ts us) : Padded (skipWhitespace ts) (skipWhitespace us) := by
  induction h
  case refl => exact .refl
  case before hs =>
    rw [hs]
    exact .refl
  case behind ht hs =>
    have hw : _ ≠ Kind.whitespace := fun hw => Kind.not_padsBehind_of_delimits (.inl hw) ht
    rw [skipWhitespace_cons_of_ne hw, skipWhitespace_cons_of_ne hw]
    exact .behind ht hs
  case cons ts us t he hp h ih =>
    by_cases hw : t.kind = .whitespace
    case pos => rwa [skipWhitespace_cons hw, skipWhitespace_cons hw]
    case neg =>
      rw [skipWhitespace_cons_of_ne hw, skipWhitespace_cons_of_ne hw]
      exact .cons he hp h

theorem kind_skipWhitespace_eq (h : Padded ts us) :
    kind (Lookahead.skipWhitespace ts) = kind (Lookahead.skipWhitespace us) := by
  induction h
  case refl => rfl
  case before hs => rw [hs]
  case behind ht _ =>
    have hw : _ ≠ Kind.whitespace := fun hw => Kind.not_padsBehind_of_delimits (.inl hw) ht
    rw [skipWhitespace_cons_of_ne hw, skipWhitespace_cons_of_ne hw]
    rfl
  case cons ts us t _ _ _ ih =>
    by_cases hw : t.kind = .whitespace
    case pos => rwa [skipWhitespace_cons hw, skipWhitespace_cons hw]
    case neg => rw [skipWhitespace_cons_of_ne hw, skipWhitespace_cons_of_ne hw]; rfl

theorem skipPadding (h : Padded ts us) : Padded (skipPadding ts) (skipPadding us) := by
  simp only [Lookahead.skipPadding, h.kind_skipWhitespace_eq]
  split
  case isTrue  => exact h.skipWhitespace
  case isFalse => exact h

-- Behind an item the two rows begin alike, if they do not go on with an `=`.
theorem kind_skipPadding_eq (h : Padded ts us) (hf : Free ts) :
    kind (Lookahead.skipPadding ts) = kind (Lookahead.skipPadding us) := by
  have hk := h.kind_skipWhitespace_eq
  simp only [Lookahead.skipPadding, ← hk]
  split
  case isTrue => exact hk
  case isFalse hn =>
    cases h with
    | refl        => rfl
    | before hb _ => simp_all [Kind.padsBefore, Free]
    | behind      => rfl
    | cons        => rfl

-- What follows two lexemes that are the same.
def Tails (t : Lexeme) (ts us : List Lexeme) : Prop :=
  Padded ts us ∨ t.kind.padsBehind ∧ Lookahead.skipWhitespace ts = Lookahead.skipWhitespace us

theorem uncons (h : Padded (t :: ts) us) (ht : t.kind ≠ .whitespace)
    (hu : t.kind.padsBefore → kind us ≠ .whitespace) : ∃ vs, us = t :: vs ∧ Tails t ts vs := by
  cases h with
  | refl         => exact ⟨ts, rfl, .inl .refl⟩
  | behind hk hs => exact ⟨_, rfl, .inr ⟨hk, hs⟩⟩
  | cons _ _ h   => exact ⟨_, rfl, .inl h⟩
  | before hb hs =>
    rw [skipWhitespace_cons_of_ne ht] at hb hs
    rw [skipWhitespace_of_kind (hu hb)] at hs
    exact ⟨ts, hs.symm, .inl .refl⟩

theorem uncons_of_begins (h : Padded (t :: ts) us) (ht : t.kind.begins) :
    ∃ vs, us = t :: vs ∧ Tails t ts vs :=
  h.uncons (kind_ne_of_begins ht).left fun hb => absurd hb (Kind.not_padsBefore_of_begins ht)

-- A delimiter is in both rows, if there is an item behind it or it is no padding itself.
theorem uncons_of_delimits (h : Padded (t :: ts) us) (ht : t.kind = .whitespace ∨ t.kind = .comma)
    (hb : (kind (Lookahead.skipWhitespace ts)).begins) (hu : t.kind = .comma → kind us = .comma) :
    ∃ vs, us = t :: vs ∧ Padded ts vs := by
  rcases ht with ht | ht
  case inl =>
    cases h with
    | refl         => exact ⟨ts, rfl, .refl⟩
    | behind hk _  => exact absurd hk (Kind.not_padsBehind_of_delimits (.inl ht))
    | cons _ _ h   => exact ⟨_, rfl, h⟩
    | before hk _  =>
      exact absurd (skipWhitespace_cons ht ts ▸ hk) (Kind.not_padsBefore_of_begins hb)
  case inr =>
    have ⟨vs, he, h⟩ := h.uncons (by simp [ht]) fun _ => by simp [hu ht]
    exact ⟨vs, he, h.resolve_right fun h => Kind.not_padsBehind_of_delimits (.inr ht) h.left⟩

-- What makes whitespace text does not stand in front of the place.
theorem eq_of_text (h : Padded (t :: ts) us) (ht : t.kind = .escape ∨ t.kind = .lParen) :
    us = t :: ts := by
  cases h with
  | refl          => rfl
  | behind hk _   => rcases ht with ht | ht <;> simp [ht, Kind.padsBehind] at hk
  | cons he hp _  => exact absurd ht (by simp [he, hp])
  | before hk _   =>
    have hb : t.kind.begins := ht.imp_right fun ht => .inl (by rw [ht]; rfl)
    rw [skipWhitespace_cons_of_ne (kind_ne_of_begins hb).left] at hk
    exact absurd hk (Kind.not_padsBefore_of_begins hb)

theorem Tails.padded (h : Tails t ts us) : Padded (Lookahead.skipWhitespace ts)
    (Lookahead.skipWhitespace us) := by
  rcases h with h | ⟨_, h⟩
  case inl => exact h.skipWhitespace
  case inr => exact h ▸ .refl

theorem Tails.of_not_padsBehind (h : Tails t ts us) (ht : ¬t.kind.padsBehind) : Padded ts us :=
  h.resolve_right fun h => ht h.left

theorem assignment?_eq_none (h : (kind (Lookahead.skipWhitespace ts)).padsBefore) :
    Lookahead.assignment? ts = none := by
  cases ts
  case nil => rfl
  case cons t ts =>
    refine assignment?_of_not_isElement fun he => ?_
    have hb : t.kind.begins := .inr (.inr he)
    rw [skipWhitespace_cons_of_ne (kind_ne_of_begins hb).left] at h
    exact Kind.not_padsBefore_of_begins hb h

theorem assignment? (h : Padded ts us) :
    Lookahead.assignment? ts = none ∧ Lookahead.assignment? us = none ∨
      ∃ a b, Lookahead.assignment? ts = some a ∧ Lookahead.assignment? us = some b ∧
        a.key = b.key ∧ Padded a.value b.value := by
  cases h with
  | refl =>
    cases ha : Lookahead.assignment? ts
    case none   => exact .inl ⟨rfl, rfl⟩
    case some a => exact .inr ⟨a, a, rfl, rfl, rfl, .refl⟩
  | before hk hs => exact .inl ⟨assignment?_eq_none hk, assignment?_eq_none (hs ▸ hk)⟩
  | behind ht _ =>
    have hn he := Kind.not_padsBehind_of_isElement he ht
    exact .inl ⟨assignment?_of_not_isElement hn, assignment?_of_not_isElement hn⟩
  | @cons ts us t _ _ h =>
    refine assignment?_eq_none_or_some h.kind_skipWhitespace_eq (fun {e es} hes he => ?_) t
    have hs := h.skipWhitespace
    rw [hes] at hs
    obtain ⟨fs, hfs, hv⟩ := hs.uncons (by simp [he]) fun _ => kind_skipWhitespace us
    have hk := hv.padded.kind_skipWhitespace_eq
    rw [skipWhitespace_idem, skipWhitespace_idem] at hk
    exact ⟨fs, hfs, hk, hv.padded⟩

end Padded

-- What is nested is read in both rows alike, if it does not leave an `=`. Behind a group, which is
-- not padded, both rows begin alike.
def ReadsPadded (depth : Nat) : Prop :=
  ∀ what opener ts v us ts', (nested depth what opener ts).Yields v us → Padded ts ts' → Free us →
    ∃ us', (nested depth what opener ts').Yields v us' ∧ Padded us us' ∧
      ∀ c first, what = .group c first → kind us = kind us'

section

variable {d : Nat} (ha : ReadsPadded d)

include ha

theorem ReadsPadded.of_tails (h : (nested d what opener ts).Yields v us)
    (hp : Padded.Tails t ts ts') (hu : Free us) :
    ∃ us', (nested d what opener ts').Yields v us' ∧ Padded us us' := by
  rcases hp with hp | ⟨_, hs⟩
  case inl =>
    have ⟨us', h, hp, _⟩ := ha _ _ _ _ _ _ h hp hu
    exact ⟨us', h, hp⟩
  case inr => exact ⟨us, nested_yields_of_skipWhitespace_eq h hs, .refl⟩

theorem ReadsAssigned.padded (h : ReadsAssigned (nested d) ts v us) (hp : Padded ts ts')
    (hu : Free us) : ∃ us', ReadsAssigned (nested d) ts' v us' ∧ Padded us us' := by
  cases h with
  | hash ht h =>
    obtain ⟨ts', rfl, hq⟩ := hp.uncons_of_begins (.inr (.inl (by rw [ht]; rfl)))
    obtain ⟨us', h, hp⟩ := ha.of_tails h hq hu
    exact ⟨us', .hash ht h, hp⟩
  | list hn ht h =>
    obtain ⟨ts', rfl, hq⟩ := hp.uncons_of_begins (.inr (.inl (Option.isSome_of_eq_some ht)))
    obtain ⟨us', h, hp⟩ := ha.of_tails h hq hu
    exact ⟨us', .list hn ht h, hp⟩
  | element ht =>
    obtain ⟨ts', rfl, hq⟩ := hp.uncons_of_begins (.inr (.inr ht))
    exact ⟨ts', .element ht, hq.of_not_padsBehind (Kind.not_padsBehind_of_isElement ht)⟩

theorem ReadsAssignment.padded (h : ReadsAssignment (nested d) ts e us) (hp : Padded ts ts')
    (hu : Free us) : ∃ us', ReadsAssignment (nested d) ts' e us' ∧ Padded us us' := by
  obtain ⟨hk, hv⟩ := h
  rcases hp.assignment? with ⟨hk', _⟩ | ⟨a, b, hk', hb, he, hp⟩
  case inl => cases hk.symm.trans hk'
  case inr =>
    cases hk.symm.trans hk'
    obtain ⟨us', hv, hp⟩ := hv.padded ha hp hu
    exact ⟨us', he ▸ .intro hb hv, hp⟩

theorem ReadsItem.padded (h : ReadsItem (nested d) (t :: ts) v us) (hp : Padded (t :: ts) ts')
    (hu : Free us) : ∃ us', ReadsItem (nested d) ts' v us' ∧ Padded us us' := by
  have hb := h.begins
  generalize hx : t :: ts = xs at h hp
  cases h with
  | escape ht h         => exact ⟨us, hp.eq_of_text (.inl ht) ▸ .escape ht h, .refl⟩
  | verbatim ht hb hk   => exact ⟨us, hp.eq_of_text (.inr ht) ▸ .verbatim ht hb hk, .refl⟩
  | hash ht h =>
    cases hx
    obtain ⟨ts', rfl, hq⟩ := hp.uncons_of_begins hb
    obtain ⟨us', h, hp⟩ := ha.of_tails h hq hu
    exact ⟨us', .hash ht h, hp⟩
  | array ht h =>
    cases hx
    obtain ⟨ts', rfl, hq⟩ := hp.uncons_of_begins hb
    obtain ⟨us', h, hp⟩ := ha.of_tails h hq hu
    exact ⟨us', .array ht h, hp⟩
  | assignment h =>
    obtain ⟨us', h, hp⟩ := h.padded ha hp hu
    exact ⟨us', .assignment h, hp⟩
  | element ht h =>
    cases hx
    rcases hp.assignment? with ⟨_, hn⟩ | ⟨_, _, hk, _⟩
    case inl =>
      obtain ⟨ts', rfl, hq⟩ := hp.uncons_of_begins hb
      exact ⟨ts', .element ht hn, hq.of_not_padsBehind (Kind.not_padsBehind_of_isElement ht)⟩
    case inr => cases h.symm.trans hk

theorem ReadsEntries.padded (h : ReadsEntries (nested d) ready es ts fs us) (hp : Padded ts ts') :
    ∃ us', ReadsEntries (nested d) ready es ts' fs us' ∧ Padded us us' := by
  induction h generalizing ts'
  case close hw ht =>
    have hp := hw ▸ hp.skipWhitespace
    obtain ⟨us', hw', hp⟩ := hp.uncons (by simp [ht]) fun _ => kind_skipWhitespace ts'
    refine ⟨us', .close hw' ht, hp.of_not_padsBehind (Kind.not_padsBehind_of_isClosing ?_)⟩
    rw [ht]
    rfl
  case comma hw ht _ ih =>
    have hp := hw ▸ hp.skipWhitespace
    obtain ⟨us', hw', hp⟩ := hp.uncons (by simp [ht]) fun _ => kind_skipWhitespace ts'
    obtain ⟨vs', h, hp⟩ := ih (hp.of_not_padsBehind (Kind.not_padsBehind_of_delimits (.inr ht)))
    exact ⟨vs', .comma hw' ht h, hp⟩
  case entry h hes ih =>
    obtain ⟨us', h, hp⟩ := h.padded ha hp.skipWhitespace hes.free
    obtain ⟨vs', hes, hp⟩ := ih hp
    exact ⟨vs', .entry h hes, hp⟩

-- Padding in front of the loop of a level is only behind a delimiter, where it makes no difference.
theorem ReadsItems.padded (h : ReadsItems (nested d) l last ts vs us) (hp : Padded ts ts')
    (hk : l.Awaits ∨ kind ts = kind ts') (hu : Free us) :
    ∃ us', ReadsItems (nested d) l last ts' vs us' ∧ Padded us us' ∧
      ((∀ k, l.close ≠ .bracket k) → kind us = kind us') := by
  induction h generalizing ts'
  case ends he hd =>
    have hk := hk.resolve_left fun hl => absurd (hd.symm.trans hl.right) nofun
    exact ⟨ts', .ends (hk ▸ he) hd, hp, fun _ => hk⟩
  case closes ht hc hd =>
    have hk := hk.resolve_left fun hl => absurd (hd.symm.trans hl.right) nofun
    have hw := (Kind.ne_of_isClosing ht).left
    obtain ⟨us', rfl, hq⟩ := hp.uncons hw fun _ => hk ▸ hw
    exact ⟨us', .closes ht hc hd, hq.of_not_padsBehind (Kind.not_padsBehind_of_isClosing ht),
      fun hb => absurd hc (hb _)⟩
  case delimiter he hd ht h ih =>
    have hl := Level.delimited_of_delimiter hd
    obtain ⟨ts', rfl, hq⟩ := hp.uncons_of_delimits ht (h.begins_of_awaits hl) fun hm =>
      (hk.resolve_left fun hl => hl.ne_comma (hm ▸ hd)) ▸ hm
    obtain ⟨us', h, hp, hb⟩ := ih hq (.inl hl) hu
    exact ⟨us', .delimiter he hd ht h, hp, Level.close_of_delimiter hd ▸ hb⟩
  case regroup he hd ht hg h ih =>
    have hk := hk.resolve_left fun hl =>
      absurd (hl.left.symm.trans (Level.haveItem_of_regroup hd)) nofun
    obtain ⟨ts', rfl, hq⟩ := hp.uncons_of_delimits ht (begins_of_group hg) (hk ▸ ·)
    obtain ⟨us', hg, hp, hk⟩ := ha _ _ _ _ _ _ hg hq (h.free hu)
    obtain ⟨ws', h, hp, hb⟩ := ih hp (.inr (hk _ _ rfl)) hu
    exact ⟨ws', .regroup he hd ht hg h, hp, Level.close_of_delimiter hd ▸ hb⟩
  case lacks he hi ht hb =>
    obtain ⟨us', rfl, _⟩ := hp.uncons_of_begins (ht.imp_right .inr)
    exact ⟨_, .lacks he hi ht hb, hp, fun _ => rfl⟩
  case item he hi hr h ih =>
    have hf := h.free hu
    rw [Free, skipWhitespace_skipPadding] at hf
    obtain ⟨us', hr', hp'⟩ := hr.padded ha hp hf
    obtain ⟨ts', rfl, _⟩ := hp.uncons_of_begins hr.begins
    obtain ⟨ws', h, hp, hb⟩ := ih hp'.skipPadding (.inr (hp'.kind_skipPadding_eq hf)) hu
    exact ⟨ws', .item he hi hr' h, hp, Level.close_of_item hi ▸ hb⟩

theorem ReadsLevel.padded (h : ReadsLevel (nested d) close first ts vs us) (hp : Padded ts ts')
    (hu : Free us) : ∃ us', ReadsLevel (nested d) close first ts' vs us' ∧ Padded us us' ∧
      ((∀ k, close ≠ .bracket k) → kind us = kind us') := by
  have hk := hp.kind_skipWhitespace_eq
  obtain ⟨hm, hc, hi⟩ := h
  obtain ⟨us', hi, hp, hb⟩ := hi.padded ha hp.skipWhitespace (.inr hk) hu
  have hl : (Level.start close).close = close := by cases close <;> rfl
  exact ⟨us', ⟨hk ▸ hm, hk ▸ hc, hi⟩, hp, hl ▸ hb⟩

end

theorem nested_readsPadded (depth : Nat) : ReadsPadded depth := by
  induction depth
  case zero => exact fun _ _ _ _ _ _ h => absurd h Outcome.yields_fail
  case succ d hi =>
    intro what opener ts v us ts' h hp hu
    obtain ⟨_, hd, h⟩ := nested_yields_iff.mp h
    cases hd
    cases h with
    | list h =>
      obtain ⟨us', h, hp, _⟩ := h.padded hi hp hu
      exact ⟨us', nested_yields_iff.mpr ⟨d, rfl, .list h⟩, hp, nofun⟩
    | group h =>
      obtain ⟨us', h, hp, hk⟩ := h.padded hi hp hu
      exact ⟨us', nested_yields_iff.mpr ⟨d, rfl, .group h⟩, hp, fun _ _ _ => hk nofun⟩
    | hash h =>
      obtain ⟨us', h, hp⟩ := h.padded hi hp
      exact ⟨us', nested_yields_iff.mpr ⟨d, rfl, .hash h⟩, hp, nofun⟩

theorem Padded.of_append (hf : ∀ t ∈ front, t.kind ≠ .escape ∧ t.kind ≠ .lParen)
    (h : Padded ts us) : Padded (front ++ ts) (front ++ us) := by
  induction front
  case nil => exact h
  case cons t front hi =>
    rw [List.forall_mem_cons] at hf
    exact .cons hf.left.left hf.left.right (hi hf.right)

-- Padding means nothing to the top level.
theorem readsLevel_padded_iff (h : Padded ts us) :
    ReadsLevel (nested m) .endOfText none ts vs [] ↔
      ReadsLevel (nested m) .endOfText none us vs [] := by
  have hp {ts us} (hp : Padded ts us) (h : ReadsLevel (nested m) .endOfText none ts vs []) :
      ReadsLevel (nested m) .endOfText none us vs [] := by
    obtain ⟨ws, h, hp, hk⟩ := h.padded (nested_readsPadded m) hp nofun
    cases hp with
    | refl        => exact h
    | before _ hs =>
      have hw : Lookahead.skipWhitespace ws = ws := skipWhitespace_of_kind (hk nofun ▸ nofun)
      rwa [← hw, ← hs] at h
  exact ⟨hp h, hp h.symm⟩

end Parser

end ArgTree
