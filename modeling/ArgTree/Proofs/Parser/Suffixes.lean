import ArgTree.Proofs.Parser.Reads

namespace ArgTree.Parser

open Lookahead

-- What is left behind something nested is a rest of what was there.
def LeavesSuffix (inner : Inner) : Prop :=
  ∀ what opener ts v us, (inner what opener ts).Yields v us → us <:+ ts

theorem assignment?_eq_some_iff : assignment? (t :: ts) = some a ↔
    ∃ u us, skipWhitespace ts = u :: us ∧ u.kind = .equals ∧ t.kind.isElement ∧
      a = ⟨t, u :: us, skipWhitespace us⟩ ∧
      ((kind (skipWhitespace us)).isElement ∨ (kind (skipWhitespace us)).isOpening) := by
  simp only [assignment?]
  constructor
  case mp =>
    intro h
    split at h
    case isFalse => contradiction
    case isTrue hk =>
      cases hu : skipWhitespace ts
      case nil => simp [hu, kind] at hk
      case cons u us =>
        rw [hu] at h hk
        exact ⟨u, us, rfl, hk.right.left, hk.left, (Option.some.inj h).symm, hk.right.right⟩
  case mpr =>
    rintro ⟨u, us, hu, hk, he, rfl, hv⟩
    rw [hu]
    exact if_pos ⟨he, hk, hv⟩

-- Two rows behind one lexeme that are related by `R` have related assignments, or none. An `=` in
-- the first of them has to be one in the second.
theorem assignment?_eq_none_or_some {R : List Lexeme → List Lexeme → Prop}
    (hk : kind (skipWhitespace ts) = kind (skipWhitespace us))
    (hr : ∀ {e es}, skipWhitespace ts = e :: es → e.kind = .equals →
      ∃ fs, skipWhitespace us = e :: fs ∧ kind (skipWhitespace es) = kind (skipWhitespace fs) ∧
        R (skipWhitespace es) (skipWhitespace fs)) (t : Lexeme) :
    assignment? (t :: ts) = none ∧ assignment? (t :: us) = none ∨
      ∃ a b, assignment? (t :: ts) = some a ∧ assignment? (t :: us) = some b ∧
        a.key = b.key ∧ R a.value b.value := by
  by_cases he : kind (skipWhitespace ts) = .equals
  case neg => exact .inl ⟨if_neg (he ·.right.left), if_neg (he <| hk.trans ·.right.left)⟩
  case pos =>
    have hn : skipWhitespace ts ≠ [] := fun hn => by simp [hn, kind] at he
    obtain ⟨e, es, ht⟩ := List.exists_cons_of_ne_nil hn
    rw [ht] at he
    obtain ⟨fs, hu, hv, hr⟩ := hr ht he
    simp only [assignment?, ht, hu, List.drop_succ_cons, List.drop_zero, ← hv]
    by_cases hp : t.kind.isElement ∧ e.kind = .equals ∧
      ((kind (skipWhitespace es)).isElement ∨ (kind (skipWhitespace es)).isOpening)
    case pos => exact .inr ⟨_, _, if_pos hp, if_pos hp, rfl, hr⟩
    case neg => exact .inl ⟨if_neg hp, if_neg hp⟩

theorem suffix_of_assignment? (h : assignment? ts = some a) :
    a.value <:+ ts ∧ a.key ∈ ts ∧ a.key.kind.isElement := by
  cases ts
  case nil => contradiction
  case cons t ts =>
    have he := isElement_of_assignment? h
    simp only [assignment?] at h
    split at h <;> cases h
    refine ⟨?_, List.mem_cons_self, he⟩
    have h₁ := (skipWhitespace_suffix ts).trans (List.suffix_cons t ts)
    exact (skipWhitespace_suffix _).trans <| (List.drop_suffix ..).trans h₁

variable {inner : Inner}

theorem ReadsAssigned.suffix (hi : LeavesSuffix inner) (h : ReadsAssigned inner ts v us) :
    us <:+ ts := by
  cases h
  case hash h    => exact (hi _ _ _ _ _ h).trans (List.suffix_cons ..)
  case list h    => exact (hi _ _ _ _ _ h).trans (List.suffix_cons ..)
  case element _ => exact List.suffix_cons ..

theorem ReadsAssignment.suffix (hi : LeavesSuffix inner) (h : ReadsAssignment inner ts e us) :
    us <:+ ts := by
  have ⟨ha, hv⟩ := h
  exact (hv.suffix hi).trans (suffix_of_assignment? ha).left

theorem ReadsEntries.suffix (hi : LeavesSuffix inner) (h : ReadsEntries inner ready es ts fs us) :
    us <:+ ts := by
  have hc {ts t us} (h : skipWhitespace ts = t :: us) : us <:+ ts :=
    (List.suffix_cons t us).trans (h ▸ skipWhitespace_suffix ts)
  induction h
  case close hs _      => exact hc hs
  case comma hs _ _ ih => exact ih.trans (hc hs)
  case entry ha _ ih   => exact ih.trans <| (ha.suffix hi).trans (skipWhitespace_suffix _)

theorem ReadsItem.suffix (hi : LeavesSuffix inner) (h : ReadsItem inner ts v us) : us <:+ ts := by
  cases h
  case escape run t _ _           => exact ⟨t :: run, rfl⟩
  case verbatim region t u _ _ _  => exact ⟨t :: region ++ [u], by simp⟩
  case hash h                     => exact (hi _ _ _ _ _ h).trans (List.suffix_cons ..)
  case array h                    => exact (hi _ _ _ _ _ h).trans (List.suffix_cons ..)
  case assignment ha              => exact ha.suffix hi
  case element _ _                => exact List.suffix_cons ..

theorem ReadsItems.suffix (hi : LeavesSuffix inner) (h : ReadsItems inner l last ts vs us) :
    us <:+ ts := by
  induction h
  case ends                 => exact List.suffix_rfl
  case closes               => exact List.suffix_cons ..
  case delimiter ih         => exact ih.trans (List.suffix_cons ..)
  case regroup hg _ ih      => exact ih.trans <| (hi _ _ _ _ _ hg).trans (List.suffix_cons ..)
  case lacks                => exact List.suffix_rfl
  case item hr _ ih         => exact ih.trans <| (skipPadding_suffix _).trans (hr.suffix hi)

theorem ReadsLevel.suffix (hi : LeavesSuffix inner) (h : ReadsLevel inner close first ts vs us) :
    us <:+ ts :=
  (h.items.suffix hi).trans (skipWhitespace_suffix ts)

theorem nested_leavesSuffix (depth : Nat) : LeavesSuffix (nested depth) := by
  intro what opener ts v us h
  refine nested_induction (fun d hi what ts v us h => ?_) h
  cases h
  case list h  => exact h.suffix hi
  case group h => exact h.suffix hi
  case hash h  => exact h.suffix hi

end ArgTree.Parser
