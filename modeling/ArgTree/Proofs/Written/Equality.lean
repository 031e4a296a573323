import ArgTree.Proofs.Written.Spelled

namespace ArgTree

theorem Binary64.equals_self {f : Binary64} (h : f.isFinite) : f.equals f := by
  cases f <;> first | contradiction | simp [equals]

namespace Value

mutual

-- A value is numerically equal to what is read from its text if all of its floats are numbers, and
-- not even then if one of them is none.
theorem spelled_equals_iff (v : Value) :
    v.spelled.equals v ↔ AllFloats (·.isFinite) v.leaves := by
  cases v
  case str s   => simp [spelled, leaves, equals, AllFloats]
  case int n   => simp [spelled, leaves, equals, AllFloats]
  case float f =>
    by_cases hf : f.isFinite
    case pos => simp [spelled, leaves, equals, AllFloats, hf, Binary64.equals_self hf]
    case neg => simp [spelled, leaves, equals, AllFloats, hf]
  case list vs => simpa [spelled, leaves, equals] using spelled_equals_items_iff vs
  case map es  => simpa [spelled, leaves, equals] using spelled_equals_entries_iff es

theorem spelled_equals_items_iff (vs : List Value) :
    equals.items (spelled.items vs) vs ↔ AllFloats (·.isFinite) (leaves.items vs) := by
  cases vs
  case nil => simp [spelled.items, equals.items, AllFloats]
  case cons v vs =>
    simp only [spelled.items, leaves.items, equals.items, Bool.and_eq_true, allFloats_append,
      spelled_equals_iff v, spelled_equals_items_iff vs]

theorem spelled_equals_entries_iff (es : List (String × Value)) :
    equals.entries (spelled.entries es) es ↔ AllFloats (·.isFinite) (leaves.entries es) := by
  cases es
  case nil => simp [spelled.entries, equals.entries, AllFloats]
  case cons e es =>
    simp only [spelled.entries, leaves.entries, equals.entries, Bool.and_eq_true, decide_true,
      true_and, List.cons_append, allFloats_cons_key, allFloats_append, spelled_equals_iff e.2,
      spelled_equals_entries_iff es]

end

theorem exists_equal_item (h : equals.items vs ws) : ∀ w ∈ ws, ∃ v ∈ vs, v.equals w := by
  induction vs generalizing ws
  case nil => cases ws <;> simp_all [equals.items]
  case cons v vs hi =>
    cases ws <;> simp only [equals.items, Bool.and_eq_true] at h
    case nil => contradiction
    case cons w ws =>
      rw [List.forall_mem_cons]
      refine ⟨⟨v, by simp, h.left⟩, fun w hw => ?_⟩
      have ⟨v, hv, he⟩ := hi h.right w hw
      exact ⟨v, List.mem_cons_of_mem _ hv, he⟩

theorem exists_equal_entry (h : equals.entries es fs) :
    Entries.keys es = Entries.keys fs ∧ ∀ f ∈ fs, ∃ e ∈ es, e.1 = f.1 ∧ e.2.equals f.2 := by
  induction es generalizing fs
  case nil => cases fs <;> simp_all [equals.entries]
  case cons e es hi =>
    cases fs <;> simp only [equals.entries, Bool.and_eq_true, decide_eq_true_eq] at h
    case nil => contradiction
    case cons f fs =>
      obtain ⟨⟨hk, hv⟩, h⟩ := h
      have ⟨hks, hes⟩ := hi h
      rw [List.forall_mem_cons]
      refine ⟨congrArg₂ List.cons hk hks, ⟨e, by simp, hk, hv⟩, fun f hf => ?_⟩
      have ⟨e, he, hf⟩ := hes f hf
      exact ⟨e, List.mem_cons_of_mem _ he, hf⟩

-- Numerically equal values are well formed alike, but for the floats in them.
theorem WellFormed.of_equals {v w : Value} (h : v.WellFormed p strings) (he : v.equals w) :
    w.WellFormed (fun _ => True) strings := by
  induction h generalizing w
  case str h =>
    cases w <;> simp only [equals, Bool.false_eq_true, decide_eq_true_eq] at he
    exact .str (he ▸ h)
  case int =>
    cases w <;> simp only [equals, Bool.false_eq_true] at he
    exact .int
  case float =>
    cases w <;> simp only [equals, Bool.false_eq_true] at he
    exact .float trivial
  case list vs _ hn _ hi =>
    cases w <;> simp only [equals, Bool.false_eq_true] at he
    case list ws =>
      refine .list ?_ fun w hw => ?_
      case refine_1 =>
        rintro rfl
        cases vs <;> simp_all [equals.items]
      case refine_2 =>
        have ⟨v, hv, he⟩ := exists_equal_item he w hw
        exact hi v hv he
  case map hn hd hk _ hi =>
    cases w <;> simp only [equals, Bool.false_eq_true] at he
    case map fs =>
      have ⟨hks, hes⟩ := exists_equal_entry he
      refine .map ?_ (hks ▸ hd) (fun f hf => ?_) fun f hf => ?_
      case refine_1 =>
        rintro rfl
        exact hn (List.map_eq_nil_iff.mp hks)
      case refine_2 =>
        have ⟨e, he, hf, _⟩ := hes f hf
        exact hf ▸ hk e he
      case refine_3 =>
        have ⟨e, he, _, hf⟩ := hes f hf
        exact hi e he hf

theorem isRoot_of_equals {v w : Value} (h : v.IsRoot p) (he : v.equals w) :
    w.IsRoot fun _ => True := by
  rcases h with rfl | ⟨hs, h⟩
  case inl =>
    cases w <;> simp only [equals, Bool.false_eq_true] at he
    case list ws =>
      cases ws
      case nil  => exact .inl rfl
      case cons => simp [equals.items] at he
  case inr =>
    refine .inr ⟨?_, h.of_equals he⟩
    cases v <;> cases w <;> simp_all [equals, isScalar]

end Value

end ArgTree
