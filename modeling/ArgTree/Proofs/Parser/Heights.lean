import ArgTree.Proofs.Parser.Unreached
import ArgTree.Proofs.Parser.WellFormed
import ArgTree.Proofs.Written.Spelled
import ArgTree.Value.Path

namespace ArgTree

open Lookahead Value

namespace Value

theorem height_items_le_iff {vs : List Value} : height.items vs ≤ n ↔ ∀ v ∈ vs, v.height ≤ n := by
  induction vs
  case nil          => simp [height.items]
  case cons v vs hi => simp [height.items, hi]

theorem height_entries_le_iff {es : List (String × Value)} :
    height.entries es ≤ n ↔ ∀ e ∈ es, e.2.height ≤ n := by
  induction es
  case nil          => simp [height.entries]
  case cons e es hi => simp [height.entries, hi]

theorem height_ofScalar (s : Scalar) : (ofScalar s).height = 0 := by
  cases s <;> rfl

theorem height_ofTopLevel_le (h : ∀ v ∈ vs, v.height ≤ n) (unwrap : Bool) :
    (ofTopLevel unwrap vs).height ≤ n + 1 := by
  simp only [ofTopLevel]
  split
  case h_1 | h_2 => exact Nat.le_succ_of_le (h _ List.mem_cons_self)
  case h_3       => exact Nat.succ_le_succ (height_items_le_iff.mpr h)

theorem height_lt_of_child? {v : Value} (h : v.child? step = some w) : w.height < v.height := by
  cases v <;> cases step <;> simp only [child?] at h <;> try contradiction
  case list.index vs place =>
    exact Nat.lt_succ_of_le (height_items_le_iff.mp (Nat.le_refl _) w (List.mem_of_getElem? h))
  case map.key es name =>
    obtain ⟨e, he, rfl⟩ := Option.map_eq_some_iff.mp h
    have hl := height_entries_le_iff.mp (Nat.le_refl _) e (List.mem_of_find?_eq_some he)
    exact Nat.lt_succ_of_le hl

-- No path leads through more than `n` lists and maps, those at its ends included.
def PathsWithin (v : Value) (n : Nat) : Prop :=
  ∀ steps w, v.descend? steps = some w → steps.length + (if w.isScalar then 0 else 1) ≤ n

theorem length_add_height_le (h : descend? v steps = some w) :
    steps.length + w.height ≤ v.height := by
  induction steps generalizing v
  case nil =>
    cases h
    exact Nat.le_of_eq (Nat.zero_add _)
  case cons step steps hi =>
    rw [descend?, List.foldlM_cons, Option.bind_eq_bind, Option.bind_eq_some_iff] at h
    obtain ⟨u, hu, hw⟩ := h
    have := height_lt_of_child? hu
    have := hi hw
    rw [List.length_cons]
    omega

theorem height_pos {v : Value} (h : v.isScalar = false) : 0 < v.height := by
  cases v <;> first | contradiction | exact Nat.succ_pos _

theorem pathsWithin_height (v : Value) : v.PathsWithin v.height := by
  intro steps w h
  have := length_add_height_le h
  split
  case isTrue     => omega
  case isFalse hw =>
    have := height_pos (Bool.eq_false_iff.mpr hw)
    omega

theorem PathsWithin.mono (h : PathsWithin v n) (hn : n ≤ m) : v.PathsWithin m :=
  fun steps w hw => Nat.le_trans (h steps w hw) hn

end Value

-- A group does not end in front of its own delimiter.
theorem Level.delimiter?_ne_of_endsAt {l : Level} (h : l.endsAt k) (hc : l.close = .group c) :
    c.delimiter? ≠ some k := by
  intro hk
  cases c <;> cases hk <;>
    simp [endsAt, groupEndsAt, hc, Convention.oppositeDelimiter?, Kind.isClosing,
      Kind.opening?] at h

namespace Parser

-- What is left behind a group does not begin with the delimiter of the group.
def LeavesNoDelimiter (inner : Inner) : Prop :=
  ∀ c first opener ts v us, (inner (.group c first) opener ts).Yields v us →
    c.delimiter? ≠ some (kind us)

-- The bounds on the heights of what is nested where `d` levels may still be opened. A group may
-- begin with an item that was read with all of these levels.
structure Low (d : Nat) (inner : Inner) : Prop where
  list  : (inner (.list close) opener ts).Yields v us → v.height < 3 * d
  group : (inner (.group c first) opener ts).Yields v us →
          (∀ w ∈ first, w.height ≤ max 1 (3 * d)) → v.height ≤ 3 * d + 1
  hash  : (inner .hash opener ts).Yields v us → v.height < 3 * d

variable {inner : Inner} {d b : Nat}

theorem ReadsItems.delimiter?_ne (h : ReadsItems inner l last ts vs us) (hc : l.close = .group c) :
    c.delimiter? ≠ some (kind us) := by
  induction h
  case ends he _           => exact Level.delimiter?_ne_of_endsAt he hc
  case closes hb _         => cases hc.symm.trans hb
  case delimiter hd _ _ ih => exact ih ((Level.close_of_delimiter hd).trans hc)
  case regroup hd _ _ _ ih => exact ih ((Level.close_of_delimiter hd).trans hc)
  case item hit _ _ ih     => exact ih ((Level.close_of_item hit).trans hc)
  case lacks ht _          =>
    have ⟨hw, hm, _⟩ := kind_ne_of_begins (ht.imp_right .inr)
    exact fun hk => (Convention.of_delimiter? hk).elim hw hm

theorem nested_leavesNoDelimiter (depth : Nat) : LeavesNoDelimiter (nested depth) := by
  intro c first opener ts v us h
  obtain ⟨_, _, h⟩ := nested_yields_iff.mp h
  cases h with
  | group h => exact h.items.delimiter?_ne rfl

theorem ReadsAssigned.height_lt (hi : Low d inner) (h : ReadsAssigned inner ts v us) :
    v.height < max 1 (3 * d) := by
  cases h
  case hash h  =>
    have := hi.hash h
    omega
  case list h  =>
    have := hi.list h
    omega
  case element =>
    rw [height_ofScalar]
    omega

theorem ReadsAssignment.height_lt (hi : Low d inner) (h : ReadsAssignment inner ts (k, v) us) :
    v.height < max 1 (3 * d) :=
  have ⟨_, h⟩ := h
  h.height_lt hi

-- An assignment is a map without a level of its own.
theorem ReadsItem.height_le (hi : Low d inner) (h : ReadsItem inner ts v us) :
    v.height ≤ max 1 (3 * d) := by
  cases h
  case escape   => exact Nat.zero_le _
  case verbatim => exact Nat.zero_le _
  case hash h   =>
    have := hi.hash h
    omega
  case array h  =>
    have := hi.list h
    omega
  case assignment k v h =>
    have := h.height_lt hi
    simpa [height, height.entries] using this
  case element  => simp [height_ofScalar]

theorem ReadsEntries.height_lt (hi : Low d inner) (h : ReadsEntries inner ready es ts fs us)
    (he : ∀ e ∈ es, e.2.height < max 1 (3 * d)) : ∀ e ∈ fs, e.2.height < max 1 (3 * d) := by
  induction h
  case close            => exact he
  case comma ih         => exact ih he
  case entry ha _ ih    =>
    refine ih fun e hm => ?_
    rcases Entries.mem_insert hm with rfl | hm
    · exact ha.height_lt hi
    · exact he e hm

-- The item that a group begins with is no group itself, since a group does not end in front of a
-- delimiter that would make it the first item of another one.
theorem ReadsItems.height_le (hi : Low d inner) (hn : LeavesNoDelimiter inner) (hb : 3 * d + 1 ≤ b)
    (h : ReadsItems inner l last ts vs us) (hl : ∀ v ∈ last, v.height ≤ b)
    (hg : ∀ c l', l.delimiter (kind ts) = .ok (.regroup c, l') →
      ∀ v ∈ last.head?, v.height ≤ max 1 (3 * d)) : ∀ v ∈ vs, v.height ≤ b := by
  induction h
  case ends   => simpa using hl
  case closes => simpa using hl
  case lacks  => simpa using hl
  case delimiter hd _ _ ih =>
    have ⟨hf, _⟩ := Level.delimited_of_delimiter hd
    refine ih hl fun c l' hr => ?_
    have := Level.haveItem_of_regroup hr
    simp [hf] at this
  case regroup t _ _ last _ _ _ _ _ _ hd _ hr _ ih =>
    have hv := Nat.le_trans (hi.group hr (hg _ _ hd)) hb
    refine ih (List.forall_mem_cons.mpr ⟨hv, fun w hw => hl w (List.mem_of_mem_tail hw)⟩) ?_
    intro c' l' hd'
    obtain ⟨rfl, _, _, _, ho⟩ := Level.of_regroup hd
    have ⟨_, _, _, _, ho'⟩ := Level.of_regroup hd'
    have hk := Level.delimiter?_of_regroup hd
    exact absurd (hk.trans (ho.symm.trans ho')) (hn _ _ _ _ _ _ hr)
  case item hr _ ih =>
    have hv := hr.height_le hi
    exact ih (List.forall_mem_cons.mpr ⟨by omega, hl⟩) fun _ _ _ => by simpa using hv

theorem ReadsLevel.height_le (hi : Low d inner) (hn : LeavesNoDelimiter inner) (hb : 3 * d + 1 ≤ b)
    (h : ReadsLevel inner close first ts vs us) (hf : ∀ v ∈ first.toList, v.height ≤ b) :
    ∀ v ∈ vs, v.height ≤ b := by
  refine h.items.height_le hi hn hb hf fun c l hr => ?_
  have hs : (Level.start close).haveItem = false := by cases close <;> rfl
  have := Level.haveItem_of_regroup hr
  simp [hs] at this

theorem nested_low (depth : Nat) : Low depth (nested depth) := by
  induction depth
  case zero =>
    refine ⟨fun h => ?_, fun h _ => ?_, fun h => ?_⟩
    all_goals exact absurd h not_nested_zero_yields
  case succ d hi =>
    have hn := nested_leavesNoDelimiter d
    refine ⟨fun h => ?_, fun h hf => ?_, fun h => ?_⟩
    all_goals
      obtain ⟨_, hd, h⟩ := nested_yields_iff.mp h
      cases hd
    case refine_1 =>
      cases h with | list h => ?_
      have := height_items_le_iff.mpr (h.height_le hi hn (Nat.le_refl _) nofun)
      simp only [height]
      omega
    case refine_2 =>
      cases h with | group h => ?_
      have hl := h.height_le hi hn (b := 3 * (d + 1)) (by omega) fun v hv => by
        have := hf v (Option.mem_toList.mp hv)
        omega
      have := height_items_le_iff.mpr hl
      simp only [height]
      omega
    case refine_3 =>
      cases h with | hash h => ?_
      have := height_entries_le_iff (n := 3 * d).mpr fun e he => by
        have := h.height_lt hi nofun e he
        omega
      simp only [height]
      omega

end Parser

namespace TokenSequence

open ArgTree.Parser

variable {s : TokenSequence}

theorem height_le_of_parse (h : s.parse o = .ok v) : v.height ≤ 3 * o.maxDepth + 2 := by
  obtain ⟨vs, hl, rfl⟩ := parse_eq_ok_iff.mp h
  refine height_ofTopLevel_le (hl.height_le (nested_low _) (nested_leavesNoDelimiter _) ?_ nofun) _
  exact Nat.le_refl _

end TokenSequence

end ArgTree
