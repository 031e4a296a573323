namespace ArgTree

-- What a reader takes from the front of a list, and what it leaves: fewer elements than `bound`.
--
-- A reader of `xs` that returns a `Reading xs.length` has consumed at least one element, so that a
-- loop over readings ends.
structure Reading (ε : Type u) (bound : Nat) (α : Type v) where
  value : α
  rest  : List ε
  below : rest.length < bound := by grind

namespace Reading

def widen {n m : Nat} (r : Reading ε n α) (h : n ≤ m := by grind) : Reading ε m α :=
  { r with below := Nat.lt_of_lt_of_le r.below h }

def map (f : α → β) (r : Reading ε n α) : Reading ε n β where
  value := f r.value
  rest  := r.rest
  below := r.below

@[simp]
theorem widen_value (r : Reading ε n α) (h : n ≤ m) : (r.widen h).value = r.value := rfl

@[simp]
theorem widen_rest (r : Reading ε n α) (h : n ≤ m) : (r.widen h).rest = r.rest := rfl

@[simp]
theorem map_value (f : α → β) (r : Reading ε n α) : (r.map f).value = f r.value := rfl

@[simp]
theorem map_rest (f : α → β) (r : Reading ε n α) : (r.map f).rest = r.rest := rfl

end Reading

end ArgTree
