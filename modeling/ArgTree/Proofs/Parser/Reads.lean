import ArgTree.Proofs.Parser.Regions

namespace ArgTree

open Lookahead

theorem Kind.closing?_of_isElement {k : Kind} (h : k.isElement) : k.closing? = none := by
  cases k <;> first | rfl | contradiction

theorem Level.delimiter_ne_complete {l l' : Level} : l.delimiter k ≠ .ok (.complete, l') := by
  intro h
  simp only [delimiter] at h
  split at h <;> (try split at h) <;> simp at h

theorem Level.close_of_delimiter {l l' : Level} (h : l.delimiter k = .ok (v, l')) :
    l'.close = l.close := by
  simp only [delimiter] at h
  split at h <;> (try split at h) <;> simp at h <;> simp [← h.right, delimited]

theorem Level.close_of_item {l l' : Level} (h : l.item k = (v, l')) : l'.close = l.close := by
  simp only [item] at h
  split at h <;> simp at h <;> simp [← h.right]

theorem Level.endsAt_endOfText {l : Level} (h : ∀ k, l.close ≠ .bracket k) :
    l.endsAt .endOfText ≠ false := by
  simp only [endsAt]
  split <;> simp_all

theorem Level.not_bracket_of_endsAt {l : Level} (h : l.endsAt k) : l.close ≠ .bracket k' := by
  intro hc
  simp [endsAt, hc] at h

theorem Level.delimited_of_delimiter {l l' : Level} (h : l.delimiter k = .ok (.proceed, l')) :
    l'.haveItem = false ∧ l'.haveDelimiter = true := by
  simp only [delimiter] at h
  split at h <;> (try split at h) <;> simp at h <;> simp [← h, delimited]

-- The first delimiter decides the convention once and for all.
theorem Level.convention_eq_of_delimiter {l l' : Level} (h : l.delimiter k = .ok (v, l'))
    (hc : l.convention ≠ .undetermined) : l'.convention = l.convention := by
  simp only [delimiter] at h
  split at h <;> (try split at h) <;> cases h <;> simp_all [delimited]

theorem Level.convention_eq_of_item {l l' : Level} (h : l.item k = (v, l'))
    (hc : l.convention ≠ .undetermined) : l'.convention = l.convention := by
  simp only [item] at h
  split at h <;> cases h
  case isTrue  => rfl
  case isFalse => simp [hc]

-- Behind an item, the delimiter of the other convention starts a group.
theorem Level.of_regroup {l l' : Level} (h : l.delimiter k = .ok (.regroup c, l')) :
    l' = l ∧ l.haveItem = true ∧ c ≠ .undetermined ∧ l.convention ≠ .undetermined ∧
      l.convention.oppositeDelimiter? = some k := by
  simp only [delimiter] at h
  split at h <;> (try split at h) <;> cases h <;> simp_all [Convention.oppositeDelimiter?]

theorem Level.haveItem_of_regroup {l l' : Level} (h : l.delimiter k = .ok (.regroup c, l')) :
    l.haveItem :=
  (of_regroup h).right.left

theorem Level.haveItem_of_item {l l' : Level} (h : l.item k = (.proceed, l')) :
    l'.haveItem = true ∧ l'.haveDelimiter = false := by
  simp only [item] at h
  split at h <;> cases h
  exact ⟨rfl, rfl⟩

theorem Level.of_item_complete {l l' : Level} (h : l.item k = (.complete, l')) :
    l.haveItem ∧ l.convention = .comma ∧ k.isOpening = false := by
  simp only [item] at h
  split at h
  case isTrue hc => exact ⟨hc.left, hc.right.left, by simpa using hc.right.right.left⟩
  case isFalse   => simp at h

theorem Level.proceed_of_item {l l' : Level} (h : l.item k = (v, l')) (hv : v ≠ .complete) :
    v = .proceed := by
  simp only [item] at h
  split at h <;> simp_all

namespace Parser

variable {inner : Inner}

-- What can be read as the value of an assignment.
inductive ReadsAssigned (inner : Inner) : List Lexeme → Value → List Lexeme → Prop
  | hash    : t.kind = .lCurly → (inner .hash t ts).Yields v us → ReadsAssigned inner (t :: ts) v us
  | list    : t.kind ≠ .lCurly → t.kind.closing? = some close →
              (inner (.list close) t ts).Yields v us → ReadsAssigned inner (t :: ts) v us
  | element : t.kind.isElement → ReadsAssigned inner (t :: ts) (.ofScalar t.value) ts

-- What can be read as an assignment.
inductive ReadsAssignment (inner : Inner) : List Lexeme → String × Value → List Lexeme → Prop
  | intro : assignment? ts = some a → ReadsAssigned inner a.value v us →
            ReadsAssignment inner ts (a.key.text, v) us

-- What can be read as the rest of a hash.
inductive ReadsEntries (inner : Inner) :
    Bool → Entries Value → List Lexeme → Entries Value → List Lexeme → Prop
  | close : skipWhitespace ts = t :: us → t.kind = .rCurly → ReadsEntries inner false es ts es us
  | comma : skipWhitespace ts = t :: us → t.kind = .comma → ReadsEntries inner true es us fs vs →
            ReadsEntries inner false es ts fs vs
  | entry : ReadsAssignment inner (skipWhitespace ts) (key, v) us →
            ReadsEntries inner false (es.insert key v) us fs vs →
            ReadsEntries inner true es ts fs vs

theorem assigned_yields_iff : (assigned inner ts).Yields v us ↔ ReadsAssigned inner ts v us := by
  constructor
  case mp =>
    intro h
    cases ts
    case nil => exact absurd h Outcome.yields_fail
    case cons t ts =>
      simp only [assigned] at h
      split at h
      case isTrue hk => exact .hash hk h
      case isFalse hk =>
        split at h
        case h_1 hc => exact .list hk hc h
        case h_2 =>
          split at h
          case isFalse => exact absurd h Outcome.yields_fail
          case isTrue he =>
            obtain ⟨rfl, rfl⟩ := Outcome.yields_ok.mp h
            exact .element he
  case mpr =>
    intro h
    cases h
    case hash hk h    => simpa [assigned, hk] using h
    case list hk hc h =>
      simp only [assigned, hk, ↓reduceIte]
      split <;> simp_all
    case element t he =>
      have hk : t.kind ≠ .lCurly := fun hk => by simp [hk, Kind.isElement] at he
      have hc := Kind.closing?_of_isElement he
      simp only [assigned, hk, ↓reduceIte]
      split <;> simp_all

theorem assignment_yields_iff :
    (assignment inner ts).Yields e us ↔ ReadsAssignment inner ts e us := by
  constructor
  case mp =>
    intro h
    cases ts
    case nil => exact absurd h Outcome.yields_fail
    case cons t ts =>
      simp only [assignment] at h
      split at h
      case h_1 => exact absurd h Outcome.yields_fail
      case h_2 a ha =>
        simp only [Outcome.yields_widen, Outcome.yields_mapValue] at h
        obtain ⟨v, h, rfl⟩ := h
        exact .intro ha (assigned_yields_iff.mp h)
  case mpr =>
    rintro ⟨ha, h⟩
    cases ts
    case nil => contradiction
    case cons t ts =>
      simp only [assignment]
      split <;> simp_all [assigned_yields_iff]

theorem isElement_of_assignment? (h : assignment? (t :: ts) = some a) : t.kind.isElement := by
  simp only [assignment?] at h
  split at h <;> simp_all

theorem ReadsEntries.of_yields (h : (entries inner ready es ts).Yields fs us) :
    ReadsEntries inner ready es ts fs us := by
  fun_induction entries inner ready es ts generalizing us
  case case3 hs _ hk hr =>
    obtain ⟨rfl, rfl⟩ := Outcome.yields_ok.mp h
    simpa [hr] using .close hs hk
  case case5 hs _ _ hk hr hi =>
    have h := hi (Outcome.yields_widen.mp h)
    simpa [hr] using .comma hs hk h
  case case8 hs _ _ _ _ hr hi =>
    have ⟨⟨(key, v), vs, hv⟩, ha, h⟩ := Outcome.yields_andThen.mp h
    have h := hi key v vs hv (Outcome.yields_widen.mp h)
    have ha : ReadsAssignment inner _ (key, v) vs := assignment_yields_iff.mp ⟨_, ha, rfl, rfl⟩
    rw [← hs] at ha
    simp only [Bool.not_eq_true', Bool.not_eq_false] at hr
    exact hr ▸ .entry ha h
  all_goals exact absurd h Outcome.yields_fail

section

variable {t : Lexeme} {ts us : List Lexeme} (hs : skipWhitespace ts = t :: us)

-- How a hash goes on behind a comma and behind an entry.
theorem entries_of_comma (ht : t.kind = .comma) : entries inner false es ts =
    (entries inner true es us).widen (Nat.le_of_lt (length_lt_of_skipWhitespace hs)) := by
  rw [entries]
  split
  case h_1 he => cases hs.symm.trans he
  case h_2 he =>
    cases hs.symm.trans he
    simp [ht]

theorem entries_of_assignment (ha : assignment? (t :: us) = some a) : entries inner true es ts =
    (assignment inner (t :: us)).andThen fun ⟨(key, v), vs, hv⟩ =>
      (entries inner false (es.insert key v) vs).widen <|
        Nat.le_of_lt (Nat.lt_of_lt_of_le hv (length_lt_of_skipWhitespace hs)) := by
  have ht := isElement_of_assignment? ha
  have hc : t.kind ≠ .rCurly := fun hk => by simp [hk, Kind.isElement] at ht
  have hm : t.kind ≠ .comma := fun hk => by simp [hk, Kind.isElement] at ht
  rw [entries]
  split
  case h_1 he => cases hs.symm.trans he
  case h_2 he =>
    cases hs.symm.trans he
    simp only [hc, hm, ha, ↓reduceIte, Option.isNone_some, Bool.false_eq_true, Bool.not_true]

end

theorem ReadsEntries.yields (h : ReadsEntries inner ready es ts fs us) :
    (entries inner ready es ts).Yields fs us := by
  induction h
  case close hs hk =>
    rw [entries]
    split
    case h_1 he => cases hs.symm.trans he
    case h_2 he =>
      cases hs.symm.trans he
      simp [hk]
  case comma hs hk _ hi =>
    rw [entries_of_comma hs hk]
    exact Outcome.yields_widen.mpr hi
  case entry ts _ _ _ _ _ _ ha _ hi =>
    have hy := assignment_yields_iff.mpr ha
    obtain ⟨ha, _⟩ := ha
    cases hs : skipWhitespace ts
    case nil => simp [hs, assignment?] at ha
    case cons t us =>
      rw [hs] at ha hy
      rw [entries_of_assignment hs ha]
      refine hy.andThen ?_
      rintro ⟨_, _, _⟩ rfl rfl
      exact Outcome.yields_widen.mpr hi

theorem entries_yields_iff :
    (entries inner ready es ts).Yields fs us ↔ ReadsEntries inner ready es ts fs us :=
  ⟨ReadsEntries.of_yields, ReadsEntries.yields⟩

-- What can be read as an item.
inductive ReadsItem (inner : Inner) : List Lexeme → Value → List Lexeme → Prop
  | escape     : t.kind = .escape → Escaped run →
                 ReadsItem inner (t :: (run ++ us)) (.str (Lexeme.textOf run)) us
  | verbatim   : t.kind = .lParen → Balanced .rParen region → u.kind = .rParen →
                 ReadsItem inner (t :: (region ++ u :: us))
                   (.str (Lexeme.textOf (t :: region ++ [u]))) us
  | hash       : t.kind = .lCurly → (inner .hash t ts).Yields v us →
                 ReadsItem inner (t :: ts) v us
  | array      : t.kind = .lSquare → (inner (.list .rSquare) t ts).Yields v us →
                 ReadsItem inner (t :: ts) v us
  | assignment : ReadsAssignment inner ts (key, v) us → ReadsItem inner ts (.map [(key, v)]) us
  | element    : t.kind.isElement → assignment? (t :: ts) = none →
                 ReadsItem inner (t :: ts) (.ofScalar t.value) ts

-- What can be read as the rest of a level. A group that lacks a delimiter ends in front of an item.
inductive ReadsItems (inner : Inner) :
    Level → List Value → List Lexeme → List Value → List Lexeme → Prop
  | ends      : l.endsAt (kind ts) → l.haveDelimiter = false →
                ReadsItems inner l last ts last.reverse ts
  | closes    : t.kind.isClosing → l.close = .bracket t.kind → l.haveDelimiter = false →
                ReadsItems inner l last (t :: ts) last.reverse ts
  | delimiter : l.endsAt t.kind = false → l.delimiter t.kind = .ok (.proceed, l') →
                t.kind = .whitespace ∨ t.kind = .comma →
                ReadsItems inner l' last ts vs us → ReadsItems inner l last (t :: ts) vs us
  | regroup   : l.endsAt t.kind = false → l.delimiter t.kind = .ok (.regroup c, l') →
                t.kind = .whitespace ∨ t.kind = .comma →
                (inner (.group c last.head?) t ts).Yields group us →
                ReadsItems inner l'.regrouped (group :: last.tail) us vs ws →
                ReadsItems inner l last (t :: ts) vs ws
  | lacks     : l.endsAt t.kind = false → l.item t.kind = (.complete, l') →
                t.kind = .escape ∨ t.kind.isElement → (∀ k, l.close ≠ .bracket k) →
                ReadsItems inner l last (t :: ts) last.reverse (t :: ts)
  | item      : l.endsAt t.kind = false → l.item t.kind = (.proceed, l') →
                ReadsItem inner (t :: ts) v us →
                ReadsItems inner l' (v :: last) (skipPadding us) vs ws →
                ReadsItems inner l last (t :: ts) vs ws

theorem assignment?_of_not_isElement (h : ¬t.kind.isElement) : assignment? (t :: ts) = none := by
  cases ha : assignment? (t :: ts)
  case none   => rfl
  case some a => exact absurd (isElement_of_assignment? ha) h

theorem role_of_isElement (h : t.kind.isElement) :
    role (t :: ts) = if (assignment? (t :: ts)).isSome then .assignment else .other := by
  cases hk : t.kind <;> simp [hk, Kind.isElement] at h <;> simp [role, kind, hk]

theorem item_of_isElement (h : t.kind.isElement) : item inner t ts =
    if (assignment? (t :: ts)).isSome then
      (assignment inner (t :: ts)).mapValue fun (key, value) => .map [(key, value)]
    else
      .ok ⟨.ofScalar t.value, ts, Nat.lt_succ_self _⟩ := by
  simp only [item, role_of_isElement h]
  by_cases ha : (assignment? (t :: ts)).isSome
  case pos => simp [ha]
  case neg => simp [ha, h]

theorem ReadsItem.of_yields (h : (item inner t ts).Yields v us) :
    ReadsItem inner (t :: ts) v us := by
  by_cases he : t.kind.isElement
  case pos =>
    rw [item_of_isElement he] at h
    split at h
    case isTrue ha =>
      have ⟨(key, v), ha, hv⟩ := Outcome.yields_mapValue.mp h
      exact hv ▸ .assignment (assignment_yields_iff.mp ha)
    case isFalse ha =>
      obtain ⟨rfl, rfl⟩ := Outcome.yields_ok.mp h
      exact .element he (by simpa using ha)
  case neg =>
    have ha : assignment? (t :: ts) = none := assignment?_of_not_isElement he
    cases hk : t.kind
    case escape =>
      simp only [item, role, kind, hk, Outcome.yields_widen, Outcome.yields_mapValue] at h
      obtain ⟨s, h, rfl⟩ := h
      obtain ⟨run, hr, rfl, rfl⟩ := escaped_yields_iff.mp h
      exact .escape hk hr
    case lParen =>
      simp only [item, role, kind, hk, Outcome.yields_widen, Outcome.yields_mapValue] at h
      obtain ⟨s, h, rfl⟩ := h
      obtain ⟨region, u, hb, hu, rfl, rfl⟩ := (verbatim_yields_iff rfl).mp h
      have hv : ReadsItem inner (t :: (region ++ u :: us)) _ us := .verbatim hk hb hu
      simpa [Lexeme.textOf] using hv
    case lCurly =>
      simp only [item, role, kind, hk] at h
      exact .hash hk h
    case lSquare =>
      simp only [item, role, kind, hk] at h
      exact .array hk h
    all_goals simp [item, role, kind, hk, ha, Kind.isElement] at h he

theorem ReadsItem.yields (h : ReadsItem inner (t :: ts) v us) :
    (item inner t ts).Yields v us := by
  cases h
  case escape run hr hk =>
    simp only [item, role, kind, hk, Outcome.yields_widen, Outcome.yields_mapValue]
    exact ⟨_, escaped_yields_iff.mpr ⟨run, hr, rfl, rfl⟩, rfl⟩
  case verbatim region u hb hu hk =>
    simp only [item, role, kind, hk, Outcome.yields_widen, Outcome.yields_mapValue]
    refine ⟨_, (verbatim_yields_iff rfl).mpr ⟨region, u, hb, hu, rfl, rfl⟩, ?_⟩
    simp [Lexeme.textOf]
  case hash hk h => simpa only [item, role, kind, hk] using h
  case array hk h => simpa only [item, role, kind, hk] using h
  case assignment key v ha =>
    have hy := assignment_yields_iff.mpr ha
    obtain ⟨a, _⟩ := ha
    rw [item_of_isElement (isElement_of_assignment? a), a]
    exact Outcome.yields_mapValue.mpr ⟨_, hy, rfl⟩
  case element he ha =>
    rw [item_of_isElement he, ha]
    simp

theorem item_yields_iff : (item inner t ts).Yields v us ↔ ReadsItem inner (t :: ts) v us :=
  ⟨ReadsItem.of_yields, ReadsItem.yields⟩

theorem role_eq_close_iff : role (t :: ts) = .close ↔ t.kind.isClosing := by
  simp only [role, kind]
  split <;> simp_all [Kind.isClosing, Kind.opening?]
  split <;> simp_all

theorem role_eq_whitespace_iff : role (t :: ts) = .whitespace ↔ t.kind = .whitespace := by
  simp only [role, kind]
  split <;> simp_all
  split <;> simp_all

theorem role_eq_comma_iff : role (t :: ts) = .comma ↔ t.kind = .comma := by
  simp only [role, kind]
  split <;> simp_all
  split <;> simp_all

theorem begins_of_role (hc : role (t :: ts) ≠ .close) (hw : role (t :: ts) ≠ .whitespace)
    (hm : role (t :: ts) ≠ .comma) (ho : ¬(role (t :: ts) = .other ∧ !t.kind.isElement))
    (hk : t.kind.isOpening = false) (he : t.kind ≠ .endOfText) :
    t.kind = .escape ∨ t.kind.isElement := by
  by_cases hi : t.kind.isElement
  case pos => exact .inr hi
  case neg =>
    have ha : assignment? (t :: ts) = none := assignment?_of_not_isElement hi
    cases hk' : t.kind <;> simp_all [role, kind, Kind.isOpening, Kind.closing?]

-- A lexeme that is no delimiter and no closing bracket is refused, or begins a phrase.
theorem begins_of_dispatched (hc : role (t :: ts) ≠ .close) (hw : role (t :: ts) ≠ .whitespace)
    (hm : role (t :: ts) ≠ .comma) (ho : ¬(role (t :: ts) = .other ∧ !t.kind.isElement))
    (he : t.kind ≠ .endOfText) :
    t.kind = .escape ∨ t.kind.isOpening ∨ t.kind.isElement := by
  by_cases hk : t.kind.isOpening
  case pos => exact .inr (.inl hk)
  case neg => exact (begins_of_role hc hw hm ho (by simpa using hk) he).imp_right .inr

theorem ReadsItems.of_yields (h : (items inner l last ts).Yields vs us) :
    ReadsItems inner l last ts vs us := by
  fun_induction items inner l last ts generalizing us
  case case2 he hd =>
    obtain ⟨rfl, rfl⟩ := Outcome.yields_ok.mp h
    exact .ends he (by simpa using hd)
  case case6 hr hc hd _ =>
    obtain ⟨rfl, rfl⟩ := Outcome.yields_ok.mp h
    exact .closes (role_eq_close_iff.mp hr) (by simpa using hc) (by simpa using hd)
  case case8 hr _ hd he hi =>
    have hk := role_eq_whitespace_iff.mp hr
    exact .delimiter (Bool.eq_false_iff.mpr he) hd (.inl hk) (hi (Outcome.yields_widen.mp h))
  case case12 hr _ hd he hi =>
    have hk := role_eq_comma_iff.mp hr
    exact .delimiter (Bool.eq_false_iff.mpr he) hd (.inr hk) (hi (Outcome.yields_widen.mp h))
  case case10 hr _ _ hd he hi =>
    have hk := role_eq_whitespace_iff.mp hr
    have ⟨⟨group, vs, hv⟩, hg, h⟩ := Outcome.yields_andThen.mp h
    have h := hi group vs hv (Outcome.yields_widen.mp h)
    exact .regroup (Bool.eq_false_iff.mpr he) hd (.inl hk) ⟨_, hg, rfl, rfl⟩ h
  case case14 hr _ _ hd he hi =>
    have hk := role_eq_comma_iff.mp hr
    have ⟨⟨group, vs, hv⟩, hg, h⟩ := Outcome.yields_andThen.mp h
    have h := hi group vs hv (Outcome.yields_widen.mp h)
    exact .regroup (Bool.eq_false_iff.mpr he) hd (.inr hk) ⟨_, hg, rfl, rfl⟩ h
  case case9 hd _ => exact absurd hd Level.delimiter_ne_complete
  case case13 hd _ => exact absurd hd Level.delimiter_ne_complete
  case case17 hi hb he hc hw hm ho =>
    obtain ⟨rfl, rfl⟩ := Outcome.yields_ok.mp h
    have he := Bool.eq_false_iff.mpr he
    have hn := (Level.of_item_complete hi).right.right
    refine .lacks he hi (begins_of_role hc hw hm ho hn fun hk => ?_) hb
    exact Level.endsAt_endOfText hb (hk ▸ he)
  case case18 hc hi he _ _ _ _ ih =>
    have ⟨⟨v, vs, hv⟩, hit, h⟩ := Outcome.yields_andThen.mp h
    have h := ih v vs hv (Outcome.yields_widen.mp h)
    cases Level.proceed_of_item hi hc
    exact .item (Bool.eq_false_iff.mpr he) hi (item_yields_iff.mp ⟨_, hit, rfl, rfl⟩) h
  all_goals exact absurd h Outcome.yields_fail

theorem ReadsItem.begins (h : ReadsItem inner (t :: ts) v us) :
    t.kind = .escape ∨ t.kind.isOpening ∨ t.kind.isElement := by
  cases h
  case escape hk     => exact .inl hk
  case verbatim hk   => exact .inr <| .inl (by rw [hk]; rfl)
  case hash hk _     => exact .inr <| .inl (by rw [hk]; rfl)
  case array hk _    => exact .inr <| .inl (by rw [hk]; rfl)
  case assignment ha =>
    have ⟨ha, _⟩ := ha
    exact .inr <| .inr (isElement_of_assignment? ha)
  case element he _  => exact .inr <| .inr he

theorem kind_ne_of_begins {k : Kind} (h : k = .escape ∨ k.isOpening ∨ k.isElement) :
    k ≠ .whitespace ∧ k ≠ .comma ∧ k.isClosing = false ∧ k ≠ .endOfText := by
  cases k <;> simp [Kind.isOpening, Kind.closing?, Kind.isElement] at h <;>
    simp [Kind.isClosing, Kind.opening?]

theorem role_ne_of_begins (ts : List Lexeme)
    (h : t.kind = .escape ∨ t.kind.isOpening ∨ t.kind.isElement) :
    role (t :: ts) ≠ .close ∧ role (t :: ts) ≠ .whitespace ∧ role (t :: ts) ≠ .comma ∧
      ¬(role (t :: ts) = .other ∧ !t.kind.isElement) := by
  have ⟨hw, hm, hc, _⟩ := kind_ne_of_begins h
  rw [ne_eq, role_eq_close_iff, ne_eq, role_eq_whitespace_iff, ne_eq, role_eq_comma_iff]
  refine ⟨by simp [hc], hw, hm, ?_⟩
  cases hk : t.kind <;> rw [hk] at h <;> simp [Kind.isOpening, Kind.closing?, Kind.isElement] at h
  all_goals simp [role, kind, hk, Kind.isElement]

section

variable {l l' : Level} {t : Lexeme} {ts : List Lexeme} (he : l.endsAt t.kind = false)

include he

-- How a level that does not end goes on: behind a delimiter, with a group in place of its last
-- item, not at all for want of a delimiter, and behind an item.
theorem items_of_delimiter (ht : t.kind = .whitespace ∨ t.kind = .comma)
    (hd : l.delimiter t.kind = .ok (.proceed, l')) :
    items inner l last (t :: ts) = (items inner l' last ts).widen (Nat.le_succ _) := by
  rw [items.eq_def]
  rcases ht with ht | ht
  case inl =>
    simp only [kind, he, role_eq_whitespace_iff.mpr ht, hd, Bool.false_eq_true, ↓reduceIte]
  case inr =>
    simp only [kind, he, role_eq_comma_iff.mpr ht, hd, Bool.false_eq_true, ↓reduceIte]

theorem items_of_regroup (ht : t.kind = .whitespace ∨ t.kind = .comma)
    (hd : l.delimiter t.kind = .ok (.regroup c, l')) :
    items inner l last (t :: ts) = (inner (.group c last.head?) t ts).andThen fun ⟨group, us, hu⟩ =>
      (items inner l'.regrouped (group :: last.tail) us).widen
        (Nat.succ_le_succ (Nat.le_of_lt hu)) := by
  rw [items.eq_def]
  rcases ht with ht | ht
  case inl =>
    simp only [kind, he, role_eq_whitespace_iff.mpr ht, hd, Bool.false_eq_true, ↓reduceIte]
  case inr =>
    simp only [kind, he, role_eq_comma_iff.mpr ht, hd, Bool.false_eq_true, ↓reduceIte]

variable (hb : t.kind = .escape ∨ t.kind.isOpening ∨ t.kind.isElement)

include hb

theorem items_of_complete (hi : l.item t.kind = (.complete, l')) (hl : ∀ k, l.close ≠ .bracket k) :
    items inner l last (t :: ts) = .ok ⟨last.reverse, t :: ts, Nat.lt_succ_self _⟩ := by
  obtain ⟨hc, hw, hm, ho⟩ := role_ne_of_begins ts hb
  rw [items.eq_def]
  simp only [kind, he, Bool.false_eq_true, ↓reduceIte]
  split <;> try contradiction
  simp only [hi]

theorem items_of_item (hi : l.item t.kind = (.proceed, l')) :
    items inner l last (t :: ts) = (item inner t ts).andThen fun ⟨v, us, hu⟩ =>
      (items inner l' (v :: last) (skipPadding us)).widen
        (Nat.succ_le_succ (Nat.le_of_lt (Nat.lt_of_le_of_lt (length_skipPadding_le us) hu))) := by
  obtain ⟨hc, hw, hm, ho⟩ := role_ne_of_begins ts hb
  rw [items.eq_def]
  simp only [kind, he, Bool.false_eq_true, ↓reduceIte]
  split <;> try contradiction
  simp only [hi]

end

theorem ReadsItems.yields (h : ReadsItems inner l last ts vs us) :
    (items inner l last ts).Yields vs us := by
  induction h
  case ends he hd =>
    rw [items.eq_def]
    simp [he, hd]
  case closes hk hc hd =>
    rw [items.eq_def]
    simp [Level.endsAt, hc, hd, role_eq_close_iff.mpr hk]
  case delimiter he hd hk _ hi =>
    rw [items_of_delimiter he hk hd]
    exact Outcome.yields_widen.mpr hi
  case regroup he hd hk hg _ hi =>
    rw [items_of_regroup he hk hd]
    refine hg.andThen ?_
    rintro ⟨_, _, _⟩ rfl rfl
    exact Outcome.yields_widen.mpr hi
  case lacks he hi hk hb =>
    rw [items_of_complete he (hk.imp_right .inr) hi hb]
    exact ⟨_, rfl, rfl, rfl⟩
  case item he hi hr _ ih =>
    rw [items_of_item he hr.begins hi]
    refine (item_yields_iff.mpr hr).andThen ?_
    rintro ⟨_, _, _⟩ rfl rfl
    exact Outcome.yields_widen.mpr ih

theorem items_yields_iff :
    (items inner l last ts).Yields vs us ↔ ReadsItems inner l last ts vs us :=
  ⟨ReadsItems.of_yields, ReadsItems.yields⟩

-- What can be read as a level, with its first item if that was read in front of it.
structure ReadsLevel (inner : Inner) (close : Close) (first : Option Value) (ts : List Lexeme)
    (vs : List Value) (us : List Lexeme) : Prop where
  not_comma   : kind (skipWhitespace ts) ≠ .comma
  not_closing : (kind (skipWhitespace ts)).isClosing = false
  items       : ReadsItems inner (.start close) first.toList (skipWhitespace ts) vs us

theorem level_yields_iff :
    (level inner close first ts).Yields vs us ↔ ReadsLevel inner close first ts vs us := by
  simp only [level]
  split
  case isTrue h =>
    refine ⟨fun hf => absurd hf Outcome.yields_fail, fun ⟨hm, hc, _⟩ => ?_⟩
    simp [hm, hc] at h
  case isFalse h =>
    simp only [not_or, Bool.not_eq_true] at h
    rw [Outcome.yields_widen, items_yields_iff]
    exact ⟨fun hi => ⟨h.left, h.right, hi⟩, fun hl => hl.items⟩

-- What can be read behind the lexeme that opens something nested.
inductive ReadsNested (inner : Inner) : Nested → List Lexeme → Value → List Lexeme → Prop
  | list  : ReadsLevel inner (.bracket close) none ts vs us →
            ReadsNested inner (.list close) ts (.list vs) us
  | group : ReadsLevel inner (.group c) first ts vs us →
            ReadsNested inner (.group c first) ts (.list vs) us
  | hash  : ReadsEntries inner true [] ts es us → ReadsNested inner .hash ts (.map es) us

theorem not_nested_zero_yields : ¬(nested 0 what opener ts).Yields v us := by
  simp [nested]

theorem nested_yields_iff : (nested depth what opener ts).Yields v us ↔
    ∃ d, depth = d + 1 ∧ ReadsNested (nested d) what ts v us := by
  constructor
  case mp =>
    intro h
    cases depth
    case zero => exact absurd h not_nested_zero_yields
    case succ d =>
      refine ⟨d, rfl, ?_⟩
      cases what
      case list close =>
        have ⟨vs, h, hv⟩ := Outcome.yields_mapValue.mp h
        exact hv ▸ .list (level_yields_iff.mp h)
      case group c first =>
        have ⟨vs, h, hv⟩ := Outcome.yields_mapValue.mp h
        exact hv ▸ .group (level_yields_iff.mp h)
      case hash =>
        have ⟨es, h, hv⟩ := Outcome.yields_mapValue.mp (Outcome.yields_widen.mp h)
        exact hv ▸ .hash (entries_yields_iff.mp h)
  case mpr =>
    rintro ⟨d, rfl, h⟩
    cases h
    case list h  => exact Outcome.yields_mapValue.mpr ⟨_, level_yields_iff.mpr h, rfl⟩
    case group h => exact Outcome.yields_mapValue.mpr ⟨_, level_yields_iff.mpr h, rfl⟩
    case hash h  =>
      exact Outcome.yields_widen.mpr <| Outcome.yields_mapValue.mpr
        ⟨_, entries_yields_iff.mpr h, rfl⟩

-- What holds of everything nested: the induction is on the depth that is left, and what is nested
-- in it in turn has one less.
@[elab_as_elim]
theorem nested_induction {P : Nat → Nested → List Lexeme → Value → List Lexeme → Prop}
    (step : ∀ d, (∀ what opener ts v us, (nested d what opener ts).Yields v us → P d what ts v us) →
      ∀ what ts v us, ReadsNested (nested d) what ts v us → P (d + 1) what ts v us)
    (h : (nested depth what opener ts).Yields v us) : P depth what ts v us := by
  induction depth generalizing what opener ts v us
  case zero => exact absurd h not_nested_zero_yields
  case succ d hi =>
    obtain ⟨_, hd, h⟩ := nested_yields_iff.mp h
    cases hd
    exact step d (fun _ _ _ _ _ h => hi h) what ts v us h

end Parser

end ArgTree
