import ArgTree.Written.Value
import ArgTree.Proofs.Parser.Marks
import ArgTree.Proofs.Written.WellFormed

namespace ArgTree.Value

-- The greatest number of lists and maps inside one another.
def height : Value → Nat
  | list vs => items vs + 1
  | map es  => entries es + 1
  | _       => 0
where
  items : List Value → Nat
    | []      => 0
    | v :: vs => max v.height (items vs)
  entries : List (String × Value) → Nat
    | []           => 0
    | (_, v) :: es => max v.height (entries es)

-- The number of levels that a whole expression for a value opens. The empty list is written without
-- brackets.
def depth : Value → Nat
  | list [] => 0
  | v       => v.height

-- A value with the names of floats that are no numbers in place of these floats. The names are
-- words, and are read as such.
def spelled : Value → Value
  | float f => if f.isFinite then float f else str (Written.float f)
  | list vs => list (items vs)
  | map es  => map (entries es)
  | v       => v
where
  items : List Value → List Value
    | []      => []
    | v :: vs => v.spelled :: items vs
  entries : List (String × Value) → List (String × Value)
    | []           => []
    | (k, v) :: es => (k, v.spelled) :: entries es

-- All floats among some leaves are as `p` says.
def AllFloats (p : Binary64 → Prop) (ls : List Leaf) : Prop :=
  ∀ f, .scalar (.float f) ∈ ls → p f

variable {p : Binary64 → Prop} {v : Value}

theorem allFloats_append {ls ls' : List Leaf} :
    AllFloats p (ls ++ ls') ↔ AllFloats p ls ∧ AllFloats p ls' := by
  simp only [AllFloats, List.mem_append, or_imp, forall_and]

theorem allFloats_cons_key {ls : List Leaf} : AllFloats p (.key k :: ls) ↔ AllFloats p ls := by
  simp [AllFloats]

mutual

theorem spelled_eq_self_iff (v : Value) : v.spelled = v ↔ AllFloats (·.isFinite) v.leaves := by
  cases v
  case str s   => simp [spelled, leaves, AllFloats]
  case int n   => simp [spelled, leaves, AllFloats]
  case float f => by_cases hf : f.isFinite <;> simp [spelled, leaves, AllFloats, hf]
  case list vs => simpa [spelled, leaves] using spelled_items_eq_self_iff vs
  case map es  => simpa [spelled, leaves] using spelled_entries_eq_self_iff es

theorem spelled_items_eq_self_iff (vs : List Value) :
    spelled.items vs = vs ↔ AllFloats (·.isFinite) (leaves.items vs) := by
  cases vs
  case nil => simp [spelled.items, AllFloats]
  case cons v vs =>
    simp only [spelled.items, leaves.items, List.cons.injEq, allFloats_append,
      spelled_eq_self_iff v, spelled_items_eq_self_iff vs]

theorem spelled_entries_eq_self_iff (es : List (String × Value)) :
    spelled.entries es = es ↔ AllFloats (·.isFinite) (leaves.entries es) := by
  cases es
  case nil => simp [spelled.entries, AllFloats]
  case cons e es =>
    obtain ⟨k, v⟩ := e
    simp only [spelled.entries, leaves.entries, List.cons.injEq, Prod.mk.injEq, true_and,
      List.cons_append, allFloats_cons_key, allFloats_append, spelled_eq_self_iff v,
      spelled_entries_eq_self_iff es]

end

theorem allFloats_leaves_items {vs : List Value} :
    AllFloats p (leaves.items vs) ↔ ∀ v ∈ vs, AllFloats p v.leaves := by
  induction vs
  case nil          => simp [AllFloats]
  case cons v vs hi => simp [leaves.items, allFloats_append, hi]

theorem allFloats_leaves_entries {es : List (String × Value)} :
    AllFloats p (leaves.entries es) ↔ ∀ e ∈ es, AllFloats p e.2.leaves := by
  induction es
  case nil          => simp [AllFloats]
  case cons e es hi =>
    simp [leaves.entries, allFloats_cons_key, allFloats_append, hi]

-- Which floats there may be is all that a restriction of the floats says.
theorem WellFormed.iff_allFloats : v.WellFormed p strings ↔
    v.WellFormed (fun _ => True) strings ∧ AllFloats p v.leaves := by
  constructor
  case mp =>
    intro h
    induction h
    case str h   => exact ⟨.str h, by simp [leaves, AllFloats]⟩
    case int     => exact ⟨.int, by simp [leaves, AllFloats]⟩
    case float h => exact ⟨.float trivial, by simp [leaves, AllFloats, h]⟩
    case list hn _ hi =>
      exact ⟨.list hn fun v hv => (hi v hv).left,
        allFloats_leaves_items.mpr fun v hv => (hi v hv).right⟩
    case map hn hd hk _ hi =>
      exact ⟨.map hn hd hk fun e he => (hi e he).left,
        allFloats_leaves_entries.mpr fun e he => (hi e he).right⟩
  case mpr =>
    rintro ⟨h, hf⟩
    induction h
    case str h   => exact .str h
    case int     => exact .int
    case float h => exact .float (hf _ (by simp [leaves]))
    case list hn _ hi =>
      exact .list hn fun v hv => hi v hv (allFloats_leaves_items.mp hf v hv)
    case map hn hd hk _ hi =>
      exact .map hn hd hk fun e he => hi e he (allFloats_leaves_entries.mp hf e he)

theorem isRoot_iff_allFloats : v.IsRoot p ↔
    v.IsRoot (fun _ => True) ∧ AllFloats p v.leaves := by
  simp only [IsRoot]
  constructor
  case mp =>
    rintro (rfl | ⟨hs, h⟩)
    case inl => exact ⟨.inl rfl, nofun⟩
    case inr =>
      have ⟨h, hf⟩ := WellFormed.iff_allFloats.mp h
      exact ⟨.inr ⟨hs, h⟩, hf⟩
  case mpr =>
    rintro ⟨h, hf⟩
    exact h.imp_right fun ⟨hs, h⟩ => ⟨hs, WellFormed.iff_allFloats.mpr ⟨h, hf⟩⟩

end ArgTree.Value
