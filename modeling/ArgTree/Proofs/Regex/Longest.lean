import ArgTree.Proofs.Regex.Greedy

namespace ArgTree

-- `f` measures the longest front of a text that belongs to a language. It fails if no front does.
structure Longest (f : List Char → Option Nat) (L : List Char → Prop) : Prop where
  sound   : f cs = some n → n ≤ cs.length ∧ L (cs.take n)
  longest : t <+: cs → L t → ∃ n, f cs = some n ∧ t.length ≤ n

namespace Longest

variable {f : List Char → Option Nat} {L : List Char → Prop}

theorem congr (h : Longest f L) (he : ∀ t, L t ↔ L' t) : Longest f L' where
  sound hn      := (h.sound hn).imp_right (he _).mp
  longest ht hL := h.longest ht ((he _).mpr hL)

theorem eq_none_iff (h : Longest f L) : f cs = none ↔ ∀ t, t <+: cs → ¬L t := by
  constructor
  case mp =>
    intro hn t ht hL
    have ⟨_, hm, _⟩ := h.longest ht hL
    simp [hn] at hm
  case mpr =>
    intro hL
    cases hm : f cs
    case none   => rfl
    case some n => exact absurd (h.sound hm).right <| hL _ (List.take_prefix n cs)

theorem eq_none_of_isPrefix (h : Longest f L) (hp : ds <+: cs) (hn : f cs = none) : f ds = none :=
  h.eq_none_iff.mpr fun t ht => h.eq_none_iff.mp hn t (ht.trans hp)

-- What is taken from a text is taken from every front of the text that it fits in.
theorem eq_some_of_isPrefix (h : Longest f L) (hp : ds <+: cs) (hn : n ≤ ds.length)
    (hm : f cs = some n) : f ds = some n := by
  have he : ds.take n = cs.take n := by
    have ⟨us, hu⟩ := hp
    rw [← hu, List.take_append_of_le_length hn]
  have hd : cs.take n <+: ds := he ▸ List.take_prefix n ds
  have ⟨m, hm', hle⟩ := h.longest hd (h.sound hm).right
  have ⟨hm₁, hm₂⟩ := h.sound hm'
  have ⟨_, hn', hge⟩ := h.longest (List.IsPrefix.trans (List.take_prefix m ds) hp) hm₂
  rw [hm] at hn'
  injection hn' with hn'
  simp only [List.length_take, ← he] at hle hge
  rw [hm', show m = n by omega]

-- A front of the text that is no shorter than any other one in the language is what is taken.
theorem eq_some_of_maximal (h : Longest f L) (ht : t <+: cs) (hL : L t)
    (hm : ∀ u, u <+: cs → L u → u.length ≤ t.length) : f cs = some t.length := by
  have ⟨n, hn, hle⟩ := h.longest ht hL
  have ⟨hn₁, hn₂⟩ := h.sound hn
  have := hm _ (List.take_prefix n cs) hn₂
  rw [List.length_take] at this
  rw [hn, show n = t.length by omega]

-- Texts with the same fronts in the language are measured alike.
theorem eq_of_prefixes (h : Longest f L) (he : ∀ t, L t → (t <+: cs ↔ t <+: ds)) : f cs = f ds := by
  cases hd : f ds
  case none =>
    exact h.eq_none_iff.mpr fun t ht hL => h.eq_none_iff.mp hd t ((he t hL).mp ht) hL
  case some n =>
    have ⟨hn, hL⟩ := h.sound hd
    have hl : (ds.take n).length = n := by simp [hn]
    refine hl ▸ h.eq_some_of_maximal ((he _ hL).mpr <| List.take_prefix n ds) hL fun u hu hu' => ?_
    have ⟨m, hm, hle⟩ := h.longest ((he u hu').mp hu) hu'
    rw [hl]
    exact Option.some.inj (hm.symm.trans hd) ▸ hle

end Longest

namespace Regex

-- The length of the longest front whose characters all satisfy `p`, if it is not empty.
def munch (p : Char → Bool) (cs : List Char) : Option Nat :=
  if (cs.takeWhile p).length = 0 then none else some (cs.takeWhile p).length

variable {p : Char → Bool}

theorem munch_cons_of_neg (h : ¬p x) : munch p (x :: xs) = none := by
  simp [munch, h]

theorem munch_cons_of_pos (h : p x) :
    munch p (x :: xs) = some ((xs.takeWhile p).length + 1) := by
  simp [munch, h]

theorem longest_munch (p : Char → Bool) : Longest (munch p) fun t => t ≠ [] ∧ ∀ c ∈ t, p c where
  sound {cs n} h := by
    simp only [munch] at h
    split at h <;> simp at h
    subst h
    have hp := List.takeWhile_prefix p (l := cs)
    rw [← List.prefix_iff_eq_take.mp hp]
    exact ⟨hp.length_le, List.ne_nil_of_length_pos (by omega),
      List.all_eq_true.mp List.all_takeWhile⟩
  longest {t cs} ht hL := by
    have ⟨us, hu⟩ := ht
    have : 0 < t.length := List.length_pos_iff.mpr hL.left
    rw [← hu, munch, List.takeWhile_append_of_pos hL.right, List.length_append, if_neg (by omega)]
    exact ⟨t.length + (us.takeWhile p).length, rfl, by omega⟩

theorem run_plus_end (s : CharSet) (c : Cursor) :
    run (plus s) c (fun d => some d.taken) = (munch s.contains c.rest).map (c.taken + ·) := by
  obtain ⟨before, taken, rest⟩ := c
  cases rest
  case nil => simp [plus, run, munch]
  case cons x xs =>
    by_cases hx : s.contains x
    case neg => simp [plus, run, hx, munch_cons_of_neg]
    case pos =>
      obtain ⟨b, hb⟩ := run_star_set_eq (s := s) (k := fun d => some d.taken) (.inr (by simp))
        ⟨some x, taken + 1, xs⟩
      rw [munch_cons_of_pos hx]
      simp only [plus, run, hx, ↓reduceIte] at hb ⊢
      rw [hb]
      simp
      omega

end Regex

namespace Pattern

open Regex

-- The regular expression that a source stands for decides what its pattern matches.
theorem longest_regex {source : String} {r : Regex} {h : (ofSource? source).isSome}
    (hr : ofSource? source = some r) (hL : Longest r.matchLength? L) (hn : ¬L []) :
    Longest (regex source ((ofSource? source).get h).matcher).matchLength? L := by
  have hg : (ofSource? source).get h = r := by simp [hr]
  have he : (regex source r.matcher).matchLength? = r.matchLength? := by
    funext cs
    rw [matchLength?]
    cases hm : r.matcher.length? cs
    case none => exact hm.symm
    case some n =>
      cases n
      case zero   => exact absurd (hL.sound hm).right (by simpa using hn)
      case succ n => exact hm.symm
  rw [hg, he]
  exact hL

theorem longest_literal {text : String} (h : text ≠ "") :
    Longest (literal text).matchLength? (· = text.toList) where
  sound hm := by
    simp only [matchLength?, Option.filter_eq_some_iff] at hm
    split at hm <;> simp at hm
    case isTrue hp =>
      have hp := List.isPrefixOf_iff_prefix.mp hp
      rw [← hm.left, ← String.length_toList]
      exact ⟨hp.length_le, (List.prefix_iff_eq_take.mp hp).symm⟩
  longest ht hL := by
    subst hL
    have : 0 < text.length := by
      rw [← String.length_toList]
      exact List.length_pos_iff.mpr (by simpa using h)
    exact ⟨text.length, by simp [matchLength?, List.isPrefixOf_iff_prefix.mpr ht, this],
      Nat.le_of_eq String.length_toList⟩

end Pattern

end ArgTree
