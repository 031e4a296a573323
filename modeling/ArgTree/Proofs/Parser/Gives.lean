import ArgTree.Proofs.Syntax.Completeness

namespace ArgTree

namespace Outcome

variable {n m : Nat} {α β : Type} {p q : Prop}

-- The outcome is a value if `fits` holds. Otherwise it is cut off for a level too many.
def Gives (o : Outcome n α) (fits : Prop) (value : α) (rest : List Lexeme) : Prop :=
  fits ∧ o.Yields value rest ∨ ¬fits ∧ ∃ ts, o = fail .nestingTooDeep ts

theorem Yields.gives {o : Outcome n α} (h : o.Yields v us) (hp : p) : o.Gives p v us :=
  .inl ⟨hp, h⟩

namespace Gives

variable {o : Outcome n α}

theorem yields (h : o.Gives p v us) (hp : p) : o.Yields v us :=
  h.elim And.right fun hn => absurd hp hn.left

theorem congr (h : o.Gives p v us) (he : p ↔ q) : o.Gives q v us :=
  propext he ▸ h

theorem widen {h : n ≤ m} : o.Gives p v us → (o.widen h).Gives p v us
  | .inl ⟨hp, hy⟩       => .inl ⟨hp, yields_widen.mpr hy⟩
  | .inr ⟨hp, ts, ho⟩   => .inr ⟨hp, ts, congrArg (·.widen h) ho⟩

theorem mapValue {f : α → β} : o.Gives p v us → (o.mapValue f).Gives p (f v) us
  | .inl ⟨hp, hy⟩       => .inl ⟨hp, yields_mapValue.mpr ⟨v, hy, rfl⟩⟩
  | .inr ⟨hp, ts, ho⟩   => .inr ⟨hp, ts, congrArg (·.mapValue f) ho⟩

-- Both parts must fit.
theorem andThen {f : Reading Lexeme n α → Outcome m β} (h : o.Gives p v us)
    (hf : ∀ r, r.value = v → r.rest = us → (f r).Gives q w vs) :
    (o.andThen f).Gives (p ∧ q) w vs := by
  rcases h with ⟨hp, hy⟩ | ⟨hp, ts, rfl⟩
  case inr => exact .inr ⟨fun h => hp h.left, ts, rfl⟩
  case inl =>
    obtain ⟨r, rfl, hv, hu⟩ := hy
    exact congr (hf r hv hu) (by simp [hp])

end Gives

end Outcome

namespace Parser

open Lookahead

variable {inner : Inner} {p q : Prop}

theorem gives_item (h : Syntax.Enters l close c t.kind) (hi : (item inner t ts).Gives p v us)
    (hr : (items inner (.begun close c) (v :: last) (skipPadding us)).Gives q vs ws) :
    (items inner l last (t :: ts)).Gives (p ∧ q) vs ws := by
  have ⟨hb, hl⟩ := h
  rw [items_of_item (Syntax.endsAt_of_begins hb) hb hl]
  refine hi.andThen ?_
  rintro ⟨_, _, _⟩ rfl rfl
  exact hr.widen

theorem gives_delimiter (he : l.endsAt t.kind = false)
    (hl : l.delimiter t.kind = .ok (.proceed, l')) (hk : t.kind = .whitespace ∨ t.kind = .comma)
    (hr : (items inner l' last ts).Gives p vs us) :
    (items inner l last (t :: ts)).Gives p vs us := by
  rw [items_of_delimiter he hk hl]
  exact hr.widen

theorem gives_assignment (h : assignment? (t :: ts) = some a)
    (ha : (assigned inner a.value).Gives p v us) :
    (assignment inner (t :: ts)).Gives p (a.key.text, v) us := by
  simp only [assignment]
  split
  case h_1 hn    => cases hn.symm.trans h
  case h_2 a' hs =>
    cases hs.symm.trans h
    exact ha.mapValue.widen

theorem gives_entry (hs : skipWhitespace ts = t :: us) (h : assignment? (t :: us) = some a)
    (hk : a.key.text = key) (ha : (assigned inner a.value).Gives p v vs)
    (hr : (entries inner false (es.insert key v) vs).Gives q fs ws) :
    (entries inner true es ts).Gives (p ∧ q) fs ws := by
  subst hk
  rw [entries_of_assignment hs h]
  refine (gives_assignment h ha).andThen ?_
  rintro ⟨_, _, _⟩ rfl rfl
  exact hr.widen

theorem gives_comma (hs : skipWhitespace ts = t :: us) (hk : t.kind = .comma)
    (hr : (entries inner true es us).Gives p fs vs) :
    (entries inner false es ts).Gives p fs vs := by
  rw [entries_of_comma hs hk]
  exact hr.widen

theorem gives_level (hs : skipWhitespace ts = us) (hb : (kind us).begins)
    (hi : (items inner (.start close) first.toList us).Gives p vs ws) :
    (level inner close first ts).Gives p vs ws := by
  subst hs
  have ⟨_, hm, hc, _⟩ := kind_ne_of_begins hb
  simp only [level]
  rw [if_neg (by simp [hm, hc])]
  exact hi.widen

theorem gives_list (hb : (kind ts).begins)
    (hi : ∀ d, (items (nested d) (.start (.bracket close)) [] ts).Gives (height ≤ d) vs us)
    (d : Nat) (opener : Lexeme) :
    (nested d (.list close) opener ts).Gives (height + 1 ≤ d) (.list vs) us := by
  cases d
  case zero => exact .inr ⟨Nat.not_succ_le_zero _, _, rfl⟩
  case succ d =>
    have hs : skipWhitespace ts = ts := skipWhitespace_of_kind (kind_ne_of_begins hb).left
    exact (gives_level hs hb (hi d)).mapValue.congr Nat.succ_le_succ_iff.symm

theorem gives_hash (he : ∀ d, (entries (nested d) true [] ts).Gives (height ≤ d) es us)
    (d : Nat) (opener : Lexeme) :
    (nested d .hash opener ts).Gives (height + 1 ≤ d) (.map es) us := by
  cases d
  case zero   => exact .inr ⟨Nat.not_succ_le_zero _, _, rfl⟩
  case succ d => exact (he d).mapValue.widen.congr Nat.succ_le_succ_iff.symm

end Parser

end ArgTree
