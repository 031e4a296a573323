import ArgTree.Proofs.Parser.Suffixes
import ArgTree.Proofs.Syntax.Spacing

namespace ArgTree

open Lookahead Syntax

theorem Kind.not_isClosing_of_delimits {k : Kind} (h : k = .whitespace ∨ k = .comma) :
    k.isClosing = false := by
  rcases h with rfl | rfl <;> rfl

theorem Kind.ne_endOfText_of_delimits {k : Kind} (h : k = .whitespace ∨ k = .comma) :
    k ≠ .endOfText := by
  rcases h with rfl | rfl <;> exact nofun

-- An assignment in front of more lexemes.
def Assignment.before (ws : List Lexeme) (a : Assignment) : Assignment :=
  { a with equals := a.equals ++ ws, value := a.value ++ ws }

namespace Lookahead

theorem kind_append_of_ne_nil (h : ts ≠ []) : kind (ts ++ ws) = kind ts := by
  cases ts
  case nil  => contradiction
  case cons => rfl

section

variable {ws : List Lexeme} (hw : (kind ws).isClosing)

include hw

theorem skipWhitespace_append (ts : List Lexeme) :
    skipWhitespace (ts ++ ws) = skipWhitespace ts ++ ws := by
  have hn : kind ws ≠ .whitespace := fun hk => by simp [hk, Kind.isClosing, Kind.opening?] at hw
  induction ts
  case nil => exact skipWhitespace_of_kind hn
  case cons t ts hi =>
    by_cases ht : t.kind = .whitespace
    case pos => rwa [List.cons_append, skipWhitespace_cons ht, skipWhitespace_cons ht]
    case neg => simp only [List.cons_append, skipWhitespace_cons_of_ne ht]

-- A closing bracket is padded as the end is.
theorem skipPadding_append (ts : List Lexeme) : skipPadding (ts ++ ws) = skipPadding ts ++ ws := by
  simp only [skipPadding, skipWhitespace_append hw]
  cases skipWhitespace ts
  case nil       => exact if_pos (.inr (.inr hw))
  case cons t us => exact (apply_ite (· ++ ws) ..).symm

-- A closing bracket belongs to no assignment.
theorem assignment?_append (t : Lexeme) (ts : List Lexeme) :
    assignment? (t :: (ts ++ ws)) = (assignment? (t :: ts)).map (·.before ws) := by
  have he : kind ws ≠ .equals := fun hk => by simp [hk, Kind.isClosing, Kind.opening?] at hw
  have hv : ¬((kind ws).isElement ∨ (kind ws).isOpening) := by
    cases hk : kind ws <;> simp [hk, Kind.isClosing, Kind.opening?] at hw <;> decide
  simp only [assignment?, skipWhitespace_append hw]
  cases skipWhitespace ts
  case nil =>
    rw [List.nil_append, if_neg (he ·.right.left), if_neg (by simp [kind]), Option.map_none]
  case cons u us =>
    simp only [List.cons_append, List.drop_succ_cons, List.drop_zero, skipWhitespace_append hw]
    cases skipWhitespace us
    case nil =>
      rw [List.nil_append, if_neg (hv ·.right.right), if_neg ?_, Option.map_none]
      exact fun h => absurd h.right.right (by decide)
    case cons v vs =>
      rw [apply_ite (Option.map (Assignment.before ws))]
      rfl

-- What is not a closing bracket stands in front of the lexemes that begin with one.
theorem exists_cons_of_append (h : ts ++ ws = t :: us) (ht : t.kind.isClosing = false) :
    ∃ vs, ts = t :: vs ∧ us = vs ++ ws := by
  cases ts
  case nil =>
    rw [List.nil_append] at h
    rw [h, kind, ht] at hw
    contradiction
  case cons =>
    obtain ⟨rfl, rfl⟩ := List.cons.inj h
    exact ⟨_, rfl, rfl⟩

end

theorem exists_append_of_suffix (h : us ++ ws <:+ ts) : ∃ vs, ts = vs ++ ws := by
  obtain ⟨vs, rfl⟩ := h
  exact ⟨vs ++ us, by rw [List.append_assoc]⟩

end Lookahead

-- Only a top level can tell a closing bracket from the end.
theorem Level.endsAt_append {l : Level} (hw : (kind ws).isClosing) (hl : l.close ≠ .endOfText)
    (ts : List Lexeme) : l.endsAt (kind (ts ++ ws)) = l.endsAt (kind ts) := by
  cases ts
  case cons => rfl
  case nil  =>
    cases hc : l.close
    case endOfText => contradiction
    case bracket   => simp only [endsAt, hc]
    case group     =>
      simp only [List.nil_append, endsAt, groupEndsAt, hc, hw, Bool.true_or, Bool.or_true]
      rfl

namespace Parser

-- What is nested is read in front of a closing bracket as at the end.
def IgnoresClosing (inner : Inner) : Prop :=
  ∀ what opener ts v us ws, (kind ws).isClosing →
    ((inner what opener (ts ++ ws)).Yields v (us ++ ws) ↔ (inner what opener ts).Yields v us)

section

variable {inner : Inner} {ws : List Lexeme} (hs : LeavesSuffix inner) (hi : IgnoresClosing inner)
  (hw : (kind ws).isClosing)

include hi hw

theorem ReadsAssigned.append (h : ReadsAssigned inner ts v us) :
    ReadsAssigned inner (ts ++ ws) v (us ++ ws) := by
  cases h with
  | hash hk h    => exact .hash hk ((hi _ _ _ _ _ _ hw).mpr h)
  | list hk hc h => exact .list hk hc ((hi _ _ _ _ _ _ hw).mpr h)
  | element he   => exact .element he

theorem ReadsAssigned.of_append (h : ReadsAssigned inner (ts ++ ws) v (us ++ ws)) :
    ReadsAssigned inner ts v us := by
  generalize hx : ts ++ ws = xs at h
  generalize hy : us ++ ws = ys at h
  cases h with
  | hash hk h    =>
    obtain ⟨vs, rfl, rfl⟩ := exists_cons_of_append hw hx (by rw [hk]; rfl)
    subst hy
    exact .hash hk ((hi _ _ _ _ _ _ hw).mp h)
  | list hk hc h =>
    have ht := (kind_ne_of_begins (.inr (.inl (Option.isSome_of_eq_some hc)))).right.right.left
    obtain ⟨vs, rfl, rfl⟩ := exists_cons_of_append hw hx ht
    subst hy
    exact .list hk hc ((hi _ _ _ _ _ _ hw).mp h)
  | element he =>
    have ht := (kind_ne_of_begins (.inr (.inr he))).right.right.left
    obtain ⟨vs, rfl, rfl⟩ := exists_cons_of_append hw hx ht
    cases List.append_cancel_right hy
    exact .element he

theorem ReadsAssignment.append (h : ReadsAssignment inner ts e us) :
    ReadsAssignment inner (ts ++ ws) e (us ++ ws) := by
  obtain ⟨ha, hv⟩ := h
  cases ts
  case nil => contradiction
  case cons t ts =>
    have ha := (assignment?_append hw t ts).trans (by rw [ha, Option.map_some])
    exact .intro (a := .before ws _) ha (hv.append hi hw)

theorem ReadsAssignment.of_append (h : ReadsAssignment inner (ts ++ ws) e (us ++ ws)) :
    ReadsAssignment inner ts e us := by
  generalize hx : ts ++ ws = xs at h
  obtain ⟨ha, hv⟩ := h
  cases xs
  case nil => contradiction
  case cons t xs =>
    have ht := (kind_ne_of_begins (.inr (.inr (isElement_of_assignment? ha)))).right.right.left
    obtain ⟨vs, rfl, rfl⟩ := exists_cons_of_append hw hx ht
    rw [assignment?_append hw] at ha
    obtain ⟨b, hb, rfl⟩ := Option.map_eq_some_iff.mp ha
    exact .intro (a := b) hb (hv.of_append hi hw)

theorem ReadsEntries.append (h : ReadsEntries inner ready es ts fs us) :
    ReadsEntries inner ready es (ts ++ ws) fs (us ++ ws) := by
  induction h
  case close hs hk    => exact .close (by rw [skipWhitespace_append hw, hs, List.cons_append]) hk
  case comma hs hk _ ih =>
    exact .comma (by rw [skipWhitespace_append hw, hs, List.cons_append]) hk ih
  case entry ha _ ih  => exact .entry (by rw [skipWhitespace_append hw]; exact ha.append hi hw) ih

theorem ReadsItem.append (h : ReadsItem inner ts v us) :
    ReadsItem inner (ts ++ ws) v (us ++ ws) := by
  cases h with
  | escape hk hr      =>
    rw [List.cons_append, List.append_assoc]
    exact .escape hk hr
  | verbatim hk hb hu =>
    rw [List.cons_append, List.append_assoc]
    exact .verbatim hk hb hu
  | hash hk h         => exact .hash hk ((hi _ _ _ _ _ _ hw).mpr h)
  | array hk h        => exact .array hk ((hi _ _ _ _ _ _ hw).mpr h)
  | assignment ha     => exact .assignment (ha.append hi hw)
  | element he ha     =>
    exact .element he ((assignment?_append hw _ _).trans (by rw [ha, Option.map_none]))

theorem ReadsItem.of_append (h : ReadsItem inner (ts ++ ws) v (us ++ ws)) :
    ReadsItem inner ts v us := by
  generalize hx : ts ++ ws = xs at h
  cases xs
  case nil => cases h with | assignment ha => cases ha with | intro ha => contradiction
  case cons t xs =>
    have ht := (kind_ne_of_begins h.begins).right.right.left
    obtain ⟨vs, rfl, rfl⟩ := exists_cons_of_append hw hx ht
    generalize hy : us ++ ws = ys at h
    generalize hz : vs ++ ws = zs at h
    cases h with
    | escape hk hr      =>
      subst hy
      rw [← List.append_assoc] at hz
      cases List.append_cancel_right hz
      exact .escape hk hr
    | verbatim hk hb hu =>
      subst hy
      rw [← List.cons_append, ← List.append_assoc] at hz
      cases List.append_cancel_right hz
      exact .verbatim hk hb hu
    | hash hk h         =>
      subst hy hz
      exact .hash hk ((hi _ _ _ _ _ _ hw).mp h)
    | array hk h        =>
      subst hy hz
      exact .array hk ((hi _ _ _ _ _ _ hw).mp h)
    | assignment ha     =>
      subst hy hz
      rw [← List.cons_append] at ha
      exact .assignment (ha.of_append hi hw)
    | element he ha     =>
      subst hz
      cases List.append_cancel_right hy
      rw [assignment?_append hw] at ha
      exact .element he (Option.map_eq_none_iff.mp ha)

theorem ReadsItems.append (h : ReadsItems inner l last ts vs us) (hl : l.close ≠ .endOfText) :
    ReadsItems inner l last (ts ++ ws) vs (us ++ ws) := by
  induction h
  case ends he hd => exact .ends (by rwa [Level.endsAt_append hw hl]) hd
  case closes hk hc hd => exact .closes hk hc hd
  case delimiter he hd hk _ ih =>
    exact .delimiter he hd hk (ih (by rwa [Level.close_of_delimiter hd]))
  case regroup he hd hk hg _ ih =>
    exact .regroup he hd hk ((hi _ _ _ _ _ _ hw).mpr hg) (ih (by
      rwa [Level.regrouped, Level.close_of_delimiter hd]))
  case lacks he hit hk hb => exact .lacks he hit hk hb
  case item he hit hv _ ih =>
    rw [← skipPadding_append hw, Level.close_of_item hit] at ih
    exact .item he hit (hv.append hi hw) (ih hl)

include hs

theorem ReadsEntries.of_append (h : ReadsEntries inner ready es (ts ++ ws) fs (us ++ ws)) :
    ReadsEntries inner ready es ts fs us := by
  generalize hx : ts ++ ws = xs at h
  generalize hy : us ++ ws = ys at h
  induction h generalizing ts
  case close hsk hk =>
    subst hx hy
    rw [skipWhitespace_append hw, ← List.cons_append] at hsk
    exact .close (List.append_cancel_right hsk) hk
  case comma hsk hk _ ih =>
    subst hx
    rw [skipWhitespace_append hw] at hsk
    obtain ⟨vs, hv, rfl⟩ := exists_cons_of_append hw hsk (by rw [hk]; rfl)
    exact .comma hv hk (ih rfl hy)
  case entry ha hr ih =>
    subst hx hy
    obtain ⟨vs, rfl⟩ := exists_append_of_suffix (hr.suffix hs)
    rw [skipWhitespace_append hw] at ha
    exact .entry (ha.of_append hi hw) (ih rfl rfl)

theorem ReadsItems.of_append (h : ReadsItems inner l last (ts ++ ws) vs (us ++ ws))
    (hl : l.close ≠ .endOfText) : ReadsItems inner l last ts vs us := by
  generalize hx : ts ++ ws = xs at h
  generalize hy : us ++ ws = ys at h
  induction h generalizing ts
  case ends he hd =>
    subst hx
    cases List.append_cancel_right hy
    rw [Level.endsAt_append hw hl] at he
    exact .ends he hd
  case closes hk hc hd =>
    subst hy
    rw [← List.cons_append] at hx
    cases List.append_cancel_right hx
    exact .closes hk hc hd
  case delimiter he hd hk _ ih =>
    have ht := Kind.not_isClosing_of_delimits hk
    obtain ⟨vs, rfl, rfl⟩ := exists_cons_of_append hw hx ht
    exact .delimiter he hd hk (ih (by rwa [Level.close_of_delimiter hd]) rfl hy)
  case regroup he hd hk hg hr ih =>
    have ht := Kind.not_isClosing_of_delimits hk
    obtain ⟨vs, rfl, rfl⟩ := exists_cons_of_append hw hx ht
    subst hy
    obtain ⟨us', rfl⟩ := exists_append_of_suffix (hr.suffix hs)
    refine .regroup he hd hk ((hi _ _ _ _ _ _ hw).mp hg) (ih ?_ rfl rfl)
    rwa [Level.regrouped, Level.close_of_delimiter hd]
  case lacks he hit hk hb =>
    cases List.append_cancel_right (hx.trans hy.symm)
    have ht := (kind_ne_of_begins (hk.imp_right .inr)).right.right.left
    obtain ⟨vs, rfl, rfl⟩ := exists_cons_of_append hw hx ht
    exact .lacks he hit hk hb
  case item he hit hv hr ih =>
    have ht := (kind_ne_of_begins hv.begins).right.right.left
    obtain ⟨vs, rfl, rfl⟩ := exists_cons_of_append hw hx ht
    subst hy
    obtain ⟨us', rfl⟩ := exists_append_of_suffix <| (hr.suffix hs).trans (skipPadding_suffix _)
    rw [← Level.close_of_item hit] at hl
    rw [← List.cons_append] at hv
    exact .item he hit (hv.of_append hi hw) (ih hl (skipPadding_append hw us').symm rfl)

omit hs hi hw in
-- Only the top level can be blank.
theorem ReadsLevel.ne_nil_of_nested (h : ReadsLevel inner close first ts vs us)
    (hc : close ≠ .endOfText) : skipWhitespace ts ≠ [] := by
  have hi := h.items
  intro hn
  rw [hn] at hi
  cases close
  case endOfText => contradiction
  case bracket   => cases hi with | ends he => contradiction
  case group     => cases hi with | ends _ hd => contradiction

theorem ReadsLevel.append_iff (hc : close ≠ .endOfText) :
    ReadsLevel inner close first (ts ++ ws) vs (us ++ ws) ↔
      ReadsLevel inner close first ts vs us := by
  have hl : (Level.start close).close ≠ .endOfText := by cases close <;> exact hc
  have hn (hn : skipWhitespace ts ≠ []) :
      kind (skipWhitespace (ts ++ ws)) = kind (skipWhitespace ts) := by
    rw [skipWhitespace_append hw, kind_append_of_ne_nil hn]
  constructor
  case mp =>
    intro h
    have hts : skipWhitespace ts ≠ [] := by
      intro hts
      have hc := h.not_closing
      rw [skipWhitespace_append hw, hts, List.nil_append, hw] at hc
      contradiction
    obtain ⟨hm, hc, hr⟩ := h
    rw [hn hts] at hm hc
    rw [skipWhitespace_append hw] at hr
    exact ⟨hm, hc, hr.of_append hs hi hw hl⟩
  case mpr =>
    intro h
    have hts := h.ne_nil_of_nested hc
    obtain ⟨hm, hc, hr⟩ := h
    rw [← hn hts] at hm hc
    refine ⟨hm, hc, ?_⟩
    rw [skipWhitespace_append hw]
    exact hr.append hi hw hl

end

theorem nested_ignoresClosing (depth : Nat) : IgnoresClosing (nested depth) := by
  induction depth
  case zero =>
    intro what opener ts v us ws hw
    exact ⟨fun h => absurd h Outcome.yields_fail, fun h => absurd h Outcome.yields_fail⟩
  case succ d hi =>
    intro what opener ts v us ws hw
    have hs := nested_leavesSuffix d
    have hl {close first vs} (hc : close ≠ .endOfText) :
        ReadsLevel (nested d) close first (ts ++ ws) vs (us ++ ws) ↔
          ReadsLevel (nested d) close first ts vs us :=
      ReadsLevel.append_iff hs hi hw hc
    rw [nested_yields_iff, nested_yields_iff]
    constructor
    case mp =>
      rintro ⟨_, hd, h⟩
      cases hd
      refine ⟨d, rfl, ?_⟩
      cases h
      case list h  => exact .list ((hl (by simp)).mp h)
      case group h => exact .group ((hl (by simp)).mp h)
      case hash h  => exact .hash (h.of_append hs hi hw)
    case mpr =>
      rintro ⟨_, hd, h⟩
      cases hd
      refine ⟨d, rfl, ?_⟩
      cases h
      case list h  => exact .list ((hl (by simp)).mpr h)
      case group h => exact .group ((hl (by simp)).mpr h)
      case hash h  => exact .hash (h.append hi hw)

end Parser

end ArgTree
