import Mathlib
import ArgTree.Parser.Basic

namespace ArgTree.Outcome

variable {n m : Nat} {α β : Type}

-- The outcome is a value, and `rest` is what is left to be read.
def Yields (o : Outcome n α) (value : α) (rest : List Lexeme) : Prop :=
  ∃ r, o = .ok r ∧ r.value = value ∧ r.rest = rest

@[simp]
theorem yields_fail : ¬(fail cause ts : Outcome n α).Yields v us := by
  rintro ⟨_, h, _⟩
  contradiction

@[simp]
theorem yields_ok {r : Reading Lexeme n α} :
    Yields (.ok r : Outcome n α) v us ↔ r.value = v ∧ r.rest = us := by
  constructor
  case mp =>
    rintro ⟨_, h, hv, hu⟩
    cases h
    exact ⟨hv, hu⟩
  case mpr => exact fun h => ⟨r, rfl, h⟩

@[simp]
theorem yields_widen {o : Outcome n α} {h : n ≤ m} : (o.widen h).Yields v us ↔ o.Yields v us := by
  cases o
  case ok r    => exact yields_ok.trans (yields_ok (r := r)).symm
  case error f => exact ⟨nofun, nofun⟩

@[simp]
theorem yields_mapValue {o : Outcome n α} {f : α → β} :
    (o.mapValue f).Yields w us ↔ ∃ v, o.Yields v us ∧ f v = w := by
  cases o
  case error f => exact ⟨nofun, nofun⟩
  case ok r =>
    constructor
    case mp  =>
      intro h
      have ⟨hv, hu⟩ := yields_ok.mp h
      exact ⟨r.value, yields_ok.mpr ⟨rfl, hu⟩, hv⟩
    case mpr =>
      rintro ⟨v, h, rfl⟩
      have ⟨hv, hu⟩ := yields_ok.mp h
      exact yields_ok.mpr ⟨congrArg f hv, hu⟩

theorem yields_andThen {o : Outcome n α} {f : Reading Lexeme n α → Outcome m β} :
    (o.andThen f).Yields w us ↔ ∃ r, o = .ok r ∧ (f r).Yields w us := by
  cases o
  case error => exact ⟨nofun, nofun⟩
  case ok r  => exact ⟨fun h => ⟨r, rfl, h⟩, fun ⟨_, h, hf⟩ => Except.ok.inj h ▸ hf⟩

theorem Yields.andThen {o : Outcome n α} {f : Reading Lexeme n α → Outcome m β} (h : o.Yields v us)
    (hf : ∀ r, r.value = v → r.rest = us → (f r).Yields w vs) : (o.andThen f).Yields w vs := by
  have ⟨r, ho, hv, hu⟩ := h
  exact yields_andThen.mpr ⟨r, ho, hf r hv hu⟩

theorem Yields.length_lt {o : Outcome n α} : o.Yields v us → us.length < n
  | ⟨r, _, _, hu⟩ => hu ▸ r.below

theorem Yields.unique {o : Outcome n α} (h : o.Yields v us) (h' : o.Yields w vs) :
    v = w ∧ us = vs := by
  obtain ⟨r, rfl, rfl, rfl⟩ := h
  exact yields_ok.mp h'

end ArgTree.Outcome
