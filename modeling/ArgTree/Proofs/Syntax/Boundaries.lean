import ArgTree.Proofs.Parser.Suffixes
import ArgTree.Proofs.Syntax.Spacing

namespace ArgTree

open ArgTree.Parser Lookahead

theorem Convention.opposite_eq_undetermined {c : Convention} (h : c.opposite = .undetermined) :
    c = .undetermined := by
  cases c <;> first | rfl | contradiction

def Convention.delimiter? : Convention → Option Kind
  | undetermined => none
  | comma        => some .comma
  | whitespace   => some .whitespace

theorem Convention.oppositeDelimiter?_opposite (c : Convention) :
    c.opposite.oppositeDelimiter? = c.delimiter? := by
  cases c <;> rfl

theorem Convention.of_delimiter? {c : Convention} (h : c.delimiter? = some k) :
    k = .whitespace ∨ k = .comma := by
  cases c <;> cases h <;> decide

-- Whether the level that something ends may hold groups.
def Close.groups : Close → Bool
  | .group _ => false
  | _        => true

-- A group knows its convention from the start.
def Close.Fits : Close → Convention → Prop
  | .group c, c' => c' = c ∧ c' ≠ .undetermined
  | _,        _  => True

theorem Close.Fits.trans {close : Close} (h : close.Fits c) (hc : c = .undetermined ∨ c = c') :
    close.Fits c' := by
  cases close
  case group => exact ⟨(hc.resolve_left h.right) ▸ h.left, hc.resolve_left h.right ▸ h.right⟩
  all_goals exact trivial

theorem Close.Fits.groups {close : Close} (h : close.Fits .undetermined) : close.groups = true := by
  cases close
  case group => exact absurd rfl h.right
  all_goals rfl

-- A phrase can begin with a lexeme of this kind.
def Kind.begins (k : Kind) : Prop :=
  k = .escape ∨ k.isOpening ∨ k.isElement

theorem Kind.not_isOpening {k : Kind} (h : k = .escape ∨ k.isElement) : k.isOpening = false := by
  rcases h with rfl | h
  case inl => rfl
  case inr => simp [isOpening, closing?_of_isElement h]

namespace Level

-- A level behind an item or a group.
def begun (close : Close) (c : Convention) : Level :=
  { close, convention := c, haveItem := true }

-- A level behind a delimiter.
def ready (close : Close) (c : Convention) : Level :=
  { close, convention := c, haveDelimiter := true }

variable {close : Close} {l : Level} {c : Convention}

theorem start_of_fits (h : close.Fits .undetermined) : start close = { close } := by
  cases close
  case group => exact absurd rfl h.right
  all_goals rfl

theorem eq_ready_of_delimiter (h : (begun close c).delimiter k = .ok (.proceed, l))
    (hk : k = .whitespace ∨ k = .comma) :
    ∃ c', l = ready close c' ∧ c'.delimiter? = some k ∧ (c = .undetermined ∨ c = c') := by
  rcases hk with rfl | rfl <;> cases c <;> simp [begun, delimiter, delimited] at h <;>
    exact h ▸ ⟨_, rfl, rfl, by simp⟩

theorem eq_begun_of_regroup (h : (begun close c).delimiter k = .ok (.regroup o, l)) :
    l = begun close c ∧ c ≠ .undetermined ∧ o = c.opposite ∧ o.delimiter? = some k := by
  simp only [delimiter] at h
  split at h <;> simp [begun] at h
  all_goals
    obtain ⟨rfl, rfl⟩ := h
    simp_all [begun, Convention.opposite, Convention.delimiter?]

-- A group ends where a level of the same convention would begin one.
theorem groups_of_endsAt (hf : close.Fits c) (hk : c.opposite.delimiter? = some k)
    (he : (begun close c).endsAt k = false) : close.groups := by
  cases close
  case group o =>
    obtain ⟨rfl, _⟩ := hf
    cases c <;> simp_all [endsAt, groupEndsAt, begun, Convention.opposite, Convention.delimiter?,
      Convention.oppositeDelimiter?]
  all_goals rfl

theorem ready_delimiter (hf : c ≠ .undetermined) (hk : k = .whitespace ∨ k = .comma)
    (h : (ready close c).delimiter k = .ok (.proceed, l)) : k = .whitespace := by
  rcases hk with rfl | rfl
  case inl => rfl
  case inr => cases c <;> simp_all [ready, delimiter]

theorem eq_begun_of_item (h : (ready close c).item k = (.proceed, l)) : l = begun close c := by
  simp only [ready, item, Bool.false_eq_true, false_and, ↓reduceIte, Prod.mk.injEq, true_and] at h
  exact h.symm

theorem begun_item (h : (begun close c).item k = (.proceed, l)) (hk : k.isClosing = false) :
    ∃ c', l = begun close c' ∧ (c = .undetermined ∧ c' = .whitespace ∨ c = c') ∧
      (c' = .whitespace ∨ c' = .comma ∧ k.isOpening) := by
  cases c <;> simp [begun, item, hk] at h
  case undetermined => exact ⟨_, h.symm, .inl ⟨rfl, rfl⟩, .inl rfl⟩
  case comma        =>
    split at h <;> simp at h
    exact ⟨_, h.symm, .inr rfl, .inr ⟨rfl, by simp_all⟩⟩
  case whitespace   => exact ⟨_, h.symm, .inr rfl, .inl rfl⟩

theorem begun_delimiter {c' : Convention} (hc : c' = .undetermined ∨ c' = c)
    (h : c.delimiter? = some k) :
    (begun close c').delimiter k = .ok (.proceed, ready close c) := by
  cases c <;> cases h <;> rcases hc with rfl | rfl <;> rfl

theorem begun_delimiter_opposite (h : c.opposite.delimiter? = some k) :
    (begun close c).delimiter k = .ok (.regroup c.opposite, begun close c) := by
  cases c <;> cases h <;> rfl

theorem endsAt_delimiter (hf : close.Fits c) (h : c.delimiter? = some k) :
    (begun close c').endsAt k = false := by
  cases close
  case group o =>
    obtain ⟨rfl, _⟩ := hf
    cases c <;> cases h <;> rfl
  all_goals cases c <;> cases h <;> rfl

theorem endsAt_delimiter_of_groups (hg : close.groups) (h : c.delimiter? = some k) :
    (begun close c').endsAt k = false := by
  cases close
  case group => contradiction
  all_goals cases c <;> cases h <;> rfl

theorem begun_item_complete (h : k = .escape ∨ k.isElement) :
    (begun close .comma).item k = (.complete, begun close .comma) := by
  have ho := Kind.not_isOpening h
  have ⟨_, _, hc, _⟩ := Parser.kind_ne_of_begins (h.imp_right .inr)
  simp [item, begun, ho, hc]

end Level

namespace Syntax

-- What stands behind a group cannot belong to it.
def Follows (c : Convention) (ts : List Lexeme) : Prop :=
  kind ts = .endOfText ∨ (kind ts).isClosing ∨ c.oppositeDelimiter? = some (kind ts) ∨
    c = .comma ∧ (kind ts = .escape ∨ (kind ts).isElement)

-- A level whose last unit stands in front of `ts` ends there and leaves `us`.
inductive Ends : Close → List Lexeme → List Lexeme → Prop
  | endOfText : Pad ts [] → Ends .endOfText ts []
  | bracket   : u.kind.isClosing → Pad ts (u :: us) → Ends (.bracket u.kind) ts us
  | group     : Pad ts us → skipPadding ts = us → Follows c us → Ends (.group c) ts us

theorem Pad.skipWhitespace_eq (h : Pad ts us) (hk : kind us ≠ .whitespace) :
    skipWhitespace ts = us := by
  cases h
  case none       => exact skipWhitespace_of_kind hk
  case space t ht => rw [skipWhitespace_cons ht, skipWhitespace_of_kind hk]

theorem Pad.eq_of_begins (h : Pad ts us) (hk : (kind us).begins) : skipWhitespace ts = us :=
  h.skipWhitespace_eq (kind_ne_of_begins hk).left

theorem skipPadding_of_begins (hk : (kind (skipWhitespace ts)).begins) : skipPadding ts = ts := by
  have ⟨_, hm, hc, he⟩ := kind_ne_of_begins hk
  simp [skipPadding, hm, hc, he]

theorem skipPadding_eq_of_begins (hk : (kind ts).begins) : skipPadding ts = ts :=
  skipPadding_of_begins (by rwa [skipWhitespace_of_kind (kind_ne_of_begins hk).left])

theorem eq_of_skipPadding (h : skipPadding ts = us) (hm : kind us ≠ .comma)
    (hc : (kind us).isClosing = false) (he : kind us ≠ .endOfText) : ts = us := by
  simp only [skipPadding] at h
  split at h
  case isTrue hp => simp [h, hm, hc, he] at hp
  case isFalse   => exact h

-- Padding is never skipped in front of a phrase.
theorem eq_of_skipPadding_of_begins (h : skipPadding ts = us) (hk : (kind us).begins) : ts = us :=
  have ⟨_, hm, hc, he⟩ := kind_ne_of_begins hk
  eq_of_skipPadding h hm hc he

theorem Separates.of_adjacent (h : c = .whitespace ∨ c = .comma ∧ (kind ts).isOpening) :
    Separates c ts ts := by
  rcases h with rfl | ⟨rfl, h⟩
  case inl => exact .adjacent
  case inr => exact .opening h

theorem Delimits.of_skipPadding (h : skipPadding ts = t :: us) (hp : Pad ts (t :: us))
    (hk : c.delimiter? = some t.kind) : Delimits c ts us := by
  cases c
  case undetermined => contradiction
  case comma        => exact .comma hp (Option.some.inj hk).symm
  case whitespace   =>
    have ht : t.kind = .whitespace := (Option.some.inj hk).symm
    have he : ts = t :: us :=
      eq_of_skipPadding h (by simp [kind, ht]) (by rw [kind, ht]; rfl) (by simp [kind, ht])
    exact he ▸ .whitespace ht

theorem length_le_of_pad (h : Pad ts us) : us.length ≤ ts.length := by
  cases h <;> simp

theorem length_lt_of_delimits (h : Delimits c ts us) : us.length < ts.length := by
  cases h
  case whitespace => simp
  case comma hp   => exact Nat.lt_of_succ_le (length_le_of_pad hp)

theorem not_delimits_self : ¬Delimits c ts ts :=
  fun h => Nat.lt_irrefl _ (length_lt_of_delimits h)

-- No delimiter of one convention does for one of the other.
theorem Delimits.not_separates_opposite (h : Delimits c ts us) : ¬Separates c.opposite ts us := by
  intro hs
  cases h
  case whitespace t ht =>
    cases hs
    case delimiter hd =>
      cases hd
      case comma u hu hp =>
        cases hp
        case none => simp [ht] at hu
  case comma t ht hp =>
    have hl := length_le_of_pad hp
    cases hs
    case delimiter hd =>
      cases hd
      case whitespace u hu =>
        cases hp
        case none => simp [ht] at hu
    case adjacent => simp at hl

-- What follows a group is not in the same convention.
theorem Follows.not_separates (h : Follows c ts) (hk : (kind ts).begins) : ¬Separates c ts ts := by
  have ⟨hw, hm, hc, he⟩ := kind_ne_of_begins hk
  intro hs
  rcases h with h | h | h | ⟨rfl, h⟩
  · exact he h
  · simp [hc] at h
  · cases c <;> simp [Convention.oppositeDelimiter?] at h
    case comma      => exact hw h.symm
    case whitespace => exact hm h.symm
  · cases hs
    case delimiter hd => exact not_delimits_self hd
    case opening ho   => simp [Kind.not_isOpening h] at ho

theorem Ends.of_endsAt {l : ArgTree.Level} (he : l.endsAt (kind us))
    (hu : l.close = .endOfText → us = []) (hs : skipPadding ts = us) (hp : Pad ts us) :
    Ends l.close ts us := by
  cases hc : l.close <;> simp [ArgTree.Level.endsAt, ArgTree.Level.groupEndsAt, hc] at he
  case endOfText => exact hu hc ▸ .endOfText (hu hc ▸ hp)
  case group c   =>
    refine .group hp hs ?_
    rcases he with he | he | he
    · exact .inl he
    · exact .inr <| .inl he
    · exact .inr <| .inr <| .inl he

theorem Follows.delimiter?_ne (h : Follows c ts) : c.delimiter? ≠ some (kind ts) := by
  intro hk
  cases c <;> simp only [Convention.delimiter?, Option.some.injEq, reduceCtorEq] at hk <;>
    simp [Follows, Convention.oppositeDelimiter?, ← hk, Kind.isClosing, Kind.opening?,
      Kind.isElement] at h

theorem Hash.kind_eq (h : Hash m d ts v us) : kind ts = .lCurly := by
  cases h with
  | intro ht _ _ _ => exact ht

theorem Assignment.isElement (h : Assignment m d ts e us) : (kind ts).isElement := by
  cases h with
  | intro ht _ _ _ _ => exact ht

theorem Item.begins (h : Item m d ts v us) : (kind ts).begins := by
  cases h with
  | element ht       => exact .inr (.inr ht)
  | escape ht _      => exact .inl ht
  | verbatim ht _ _  => exact .inr <| .inl (by rw [kind, ht]; rfl)
  | hash _ h         => exact .inr <| .inl (by rw [h.kind_eq]; rfl)
  | array _ ht _ _   => exact .inr <| .inl (by rw [kind, ht]; rfl)
  | assignment h     => exact .inr <| .inr h.isElement

theorem Group.begins (h : Group m d c ts v us) : (kind ts).begins := by
  cases h with
  | intro _ hi _ _ => exact hi.begins

theorem Units.begins (h : Units m d c groups ts vs us) : (kind ts).begins := by
  cases h with
  | item h            => exact h.begins
  | group h           => exact h.begins
  | itemMore h _ _    => exact h.begins
  | groupMore h _ _ _ => exact h.begins

theorem Body.begins (h : Body m d ts vs us) : (kind ts).begins := by
  cases h with
  | single h         => exact h.begins
  | whitespace h _ _ => exact h.begins
  | comma h _ _      => exact h.begins

theorem Assigned.begins (h : Assigned m d ts v us) : (kind ts).isElement ∨ (kind ts).isOpening := by
  cases h with
  | element ht    => exact .inl ht
  | hash _ h      => exact .inr (by rw [h.kind_eq]; rfl)
  | list _ ht _ _ => exact .inr (by rcases ht with ht | ht <;> rw [kind, ht] <;> rfl)

end Syntax

end ArgTree
