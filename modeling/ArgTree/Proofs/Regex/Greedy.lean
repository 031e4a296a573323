import Mathlib
import ArgTree.Rule

namespace ArgTree

namespace Regex

theorem not_of_dropWhile_eq_cons {p : β → Bool} {xs : List β} (h : xs.dropWhile p = y :: ys) :
    ¬p y := by
  have := List.head_dropWhile_not p (l := xs) (by simp [h])
  simpa [h] using this

-- One or more characters of a set.
def plus (s : CharSet) : Regex :=
  seq (set s) (star true (set s))

-- An optional character of a set.
def atMostOne (s : CharSet) : Regex :=
  alt (seq (set s) empty) empty

variable {α : Type} {s : CharSet} {k : Cursor → Option α}

theorem run_seq (r s : Regex) (c : Cursor) :
    (seq r s).run c k = r.run c fun d => s.run d k :=
  rfl

theorem run_set (s : CharSet) (c : Cursor) :
    (set s).run c k =
      match c.rest with
      | x :: xs => if s.contains x then k ⟨some x, c.taken + 1, xs⟩ else none
      | []      => none :=
  rfl

theorem run_star_set (s : CharSet) (c : Cursor) (k : Cursor → Option α) :
    run (star true (set s)) c k =
      match c.rest with
      | []      => k c
      | x :: xs =>
        if s.contains x then
          firstOf (run (star true (set s)) ⟨some x, c.taken + 1, xs⟩ k) fun _ => k c
        else
          k c := by
  obtain ⟨before, taken, rest⟩ := c
  cases rest
  case nil => simp [run, iterate]
  case cons x xs =>
    by_cases hs : s.contains x <;> simp [run, iterate, hs, firstOf]

-- A greedy repetition takes all it can if what follows cannot begin with a character of the set,
-- and also if nothing can go wrong behind it.
theorem run_star_set_eq (hk : (∀ d x xs, d.rest = x :: xs → s.contains x → k d = none) ∨
      ∀ d, (k d).isSome) (c : Cursor) :
    ∃ b, run (star true (set s)) c k =
      k ⟨b, c.taken + (c.rest.takeWhile s.contains).length, c.rest.dropWhile s.contains⟩ := by
  obtain ⟨before, taken, rest⟩ := c
  induction rest generalizing before taken
  case nil => exact ⟨before, by simp [run_star_set]⟩
  case cons x xs hi =>
    rw [run_star_set]
    by_cases hs : s.contains x
    case neg => exact ⟨before, by simp [hs]⟩
    case pos =>
      obtain ⟨b, hb⟩ := hi (some x) (taken + 1)
      have hf (d : Cursor) : firstOf (k d) (fun _ => k ⟨before, taken, x :: xs⟩) = k d := by
        rcases hk with hk | hk
        case inl =>
          rw [hk ⟨before, taken, x :: xs⟩ x xs rfl hs]
          cases k d <;> rfl
        case inr =>
          obtain ⟨v, hv⟩ := Option.isSome_iff_exists.mp (hk d)
          rw [hv]
          rfl
      refine ⟨b, ?_⟩
      simp only [hs, ↓reduceIte, hb, hf, List.takeWhile_cons, List.dropWhile_cons, List.length_cons,
        Nat.add_assoc, Nat.add_comm 1]

end Regex

end ArgTree
