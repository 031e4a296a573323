import ArgTree.Proofs.Parser.Yields

namespace ArgTree

theorem Lexeme.textOf_cons (t : Lexeme) (ts : List Lexeme) :
    textOf (t :: ts) = t.text ++ textOf ts := by
  simp [textOf, String.join_cons]

theorem Lexeme.textOf_append (ts us : List Lexeme) :
    textOf (ts ++ us) = textOf ts ++ textOf us := by
  simp [textOf, String.join_append]

namespace Parser

variable {close : Kind}

-- What an escape turns into text: more escapes, and one other lexeme.
inductive Escaped : List Lexeme → Prop
  | last   : t.kind ≠ .escape → Escaped [t]
  | escape : t.kind = .escape → Escaped ts → Escaped (t :: ts)

theorem Escaped.eq_append (h : Escaped run) :
    ∃ es t, run = es ++ [t] ∧ (∀ e ∈ es, e.kind = .escape) ∧ t.kind ≠ .escape := by
  induction h
  case last t hk => exact ⟨[], t, rfl, nofun, hk⟩
  case escape _ t hk _ hi =>
    have ⟨es, u, hr, he, hu⟩ := hi
    exact ⟨t :: es, u, by rw [hr, List.cons_append], by simpa [hk], hu⟩

theorem escaped_yields_iff : (escaped ts).Yields s us ↔
    ∃ run, Escaped run ∧ ts = run ++ us ∧ s = Lexeme.textOf run := by
  constructor
  case mp =>
    intro h
    induction ts generalizing s
    case nil => exact absurd h Outcome.yields_fail
    case cons t ts hi =>
      simp only [escaped] at h
      split at h
      case isTrue hk =>
        simp only [Outcome.yields_widen, Outcome.yields_mapValue] at h
        obtain ⟨s, h, rfl⟩ := h
        obtain ⟨run, hr, ht, hs⟩ := hi h
        exact ⟨t :: run, .escape hk hr, by rw [ht, List.cons_append],
          by rw [Lexeme.textOf_cons, hs]⟩
      case isFalse hk =>
        obtain ⟨rfl, rfl⟩ := Outcome.yields_ok.mp h
        exact ⟨[t], .last hk, rfl, by simp [Lexeme.textOf]⟩
  case mpr =>
    rintro ⟨run, h, rfl, rfl⟩
    induction h
    case last hk => simp [escaped, hk, Lexeme.textOf]
    case escape hk _ hi =>
      simp only [List.cons_append, escaped, hk, ↓reduceIte, Outcome.yields_widen,
        Outcome.yields_mapValue]
      exact ⟨_, hi, (Lexeme.textOf_cons ..).symm⟩

-- A row of lexemes in which every bracket of one family has its partner. An escape protects the
-- lexeme behind it.
inductive Balanced (close : Kind) : List Lexeme → Prop
  | nil     : Balanced close []
  | escape  : t.kind = .escape → Balanced close ts → Balanced close (t :: u :: ts)
  | other   : t.kind ≠ .escape → t.kind ≠ close → close.opening? ≠ some t.kind →
              Balanced close ts → Balanced close (t :: ts)
  | bracket : close.opening? = some t.kind → Balanced close ts → u.kind = close →
              Balanced close us → Balanced close (t :: ts ++ u :: us)

theorem Balanced.append (h : Balanced close ts) (h' : Balanced close us) :
    Balanced close (ts ++ us) := by
  induction h
  case nil                  => exact h'
  case escape hk _ hi       => exact .escape hk hi
  case other hk hc ho _ hi  => exact .other hk hc ho hi
  case bracket ho ht hc _ _ hi =>
    rw [List.append_assoc, List.cons_append]
    exact .bracket ho ht hc hi

-- A row of lexemes that closes the brackets in which it stands, `depth` of them and one more, with
-- its last lexeme.
inductive Closes (close : Kind) : Nat → List Lexeme → Prop
  | last : Balanced close ts → u.kind = close → Closes close 0 (ts ++ [u])
  | more : Balanced close ts → u.kind = close → Closes close depth us →
           Closes close (depth + 1) (ts ++ u :: us)

theorem Closes.prepend (h : Balanced close ts) (h' : Closes close depth us) :
    Closes close depth (ts ++ us) := by
  cases h'
  case last hb hc => exact List.append_assoc .. ▸ .last (h.append hb) hc
  case more hb hc hr => exact List.append_assoc .. ▸ .more (h.append hb) hc hr

theorem Closes.nest (ho : close.opening? = some t.kind) (h : Closes close (depth + 1) us) :
    Closes close depth (t :: us) := by
  cases h
  case more hb hc hr =>
    have := hr.prepend (.bracket ho hb hc .nil)
    simpa using this

theorem closes_of_verbatim (h : (verbatim close depth ts).Yields s us) :
    ∃ region, Closes close depth region ∧ ts = region ++ us ∧ s = Lexeme.textOf region := by
  fun_induction verbatim generalizing s us
  case case1 => exact absurd h Outcome.yields_fail
  case case2 => exact absurd h Outcome.yields_fail
  case case3 hk _ _ hi =>
    simp only [Outcome.yields_widen, Outcome.yields_mapValue] at h
    obtain ⟨_, h, rfl⟩ := h
    obtain ⟨region, hr, ht, hs⟩ := hi h
    refine ⟨_, hr.prepend (.escape hk .nil), by rw [ht]; rfl, ?_⟩
    simp only [List.cons_append, List.nil_append, Lexeme.textOf_cons, hs, String.append_assoc]
  case case4 hk =>
    obtain ⟨rfl, rfl⟩ := Outcome.yields_ok.mp h
    exact ⟨_, .last .nil hk, rfl, by simp [Lexeme.textOf]⟩
  case case5 hk _ hi =>
    simp only [Outcome.yields_widen, Outcome.yields_mapValue] at h
    obtain ⟨_, h, rfl⟩ := h
    obtain ⟨region, hr, ht, hs⟩ := hi h
    refine ⟨_, .more .nil hk hr, by rw [ht]; rfl, ?_⟩
    rw [List.nil_append, Lexeme.textOf_cons, hs]
  case case6 ho hi =>
    simp only [Outcome.yields_widen, Outcome.yields_mapValue] at h
    obtain ⟨_, h, rfl⟩ := h
    obtain ⟨region, hr, ht, hs⟩ := hi h
    exact ⟨_, hr.nest ho, by rw [ht, List.cons_append], by rw [Lexeme.textOf_cons, hs]⟩
  case case7 hk hc ho hi =>
    simp only [Outcome.yields_widen, Outcome.yields_mapValue] at h
    obtain ⟨_, h, rfl⟩ := h
    obtain ⟨region, hr, ht, hs⟩ := hi h
    refine ⟨_, hr.prepend (.other hk hc ho .nil), by rw [ht]; rfl, ?_⟩
    rw [List.singleton_append, Lexeme.textOf_cons, hs]

theorem Balanced.verbatim_yields (hc : close.isClosing) (h : Balanced close ts)
    (hv : (verbatim close depth us).Yields s vs) :
    (verbatim close depth (ts ++ us)).Yields (Lexeme.textOf ts ++ s) vs := by
  have hn {k : Kind} (hk : k = close ∨ close.opening? = some k) : k ≠ .escape := by
    rintro rfl
    rcases hk with rfl | hk
    · contradiction
    · cases close <;> contradiction
  have hno : close.opening? ≠ some close := by cases close <;> simp [Kind.opening?]
  induction h generalizing depth us s
  case nil => simpa [Lexeme.textOf] using hv
  case escape hk _ hi =>
    simp only [List.cons_append, verbatim, hk, ↓reduceIte, Outcome.yields_widen,
      Outcome.yields_mapValue]
    exact ⟨_, hi hv, by simp only [Lexeme.textOf_cons, String.append_assoc]⟩
  case other hk hc ho _ hi =>
    rw [List.cons_append, verbatim.eq_def]
    simp only [hk, hc, ho, ↓reduceIte, Outcome.yields_widen, Outcome.yields_mapValue]
    exact ⟨_, hi hv, by rw [Lexeme.textOf_cons, String.append_assoc]⟩
  case bracket us' t u ho _ hu _ hi hi' =>
    have ht : t.kind ≠ close := fun ht => hno (ht ▸ ho)
    have h : (verbatim close (depth + 1) (u :: (us' ++ us))).Yields
        (u.text ++ (Lexeme.textOf us' ++ s)) vs := by
      rw [verbatim.eq_def]
      simp only [hu, hn (.inl rfl), ↓reduceIte, Outcome.yields_widen, Outcome.yields_mapValue]
      exact ⟨_, hi' hv, rfl⟩
    rw [List.append_assoc, List.cons_append, verbatim.eq_def]
    simp only [hn (.inr ho), ht, ho, ↓reduceIte, Outcome.yields_widen, Outcome.yields_mapValue]
    refine ⟨_, hi h, ?_⟩
    simp only [Lexeme.textOf_cons, Lexeme.textOf_append, List.cons_append, String.append_assoc]

theorem verbatim_yields_iff (hc : close.isClosing) : (verbatim close 0 ts).Yields s us ↔
    ∃ region u, Balanced close region ∧ u.kind = close ∧ ts = region ++ u :: us ∧
      s = Lexeme.textOf region ++ u.text := by
  constructor
  case mp =>
    intro h
    have ⟨_, hr, ht, hs⟩ := closes_of_verbatim h
    cases hr
    case last ts u hb hu =>
      refine ⟨ts, u, hb, hu, by simpa using ht, ?_⟩
      rw [hs, Lexeme.textOf_append]
      simp [Lexeme.textOf]
  case mpr =>
    rintro ⟨region, u, hb, hu, rfl, rfl⟩
    refine hb.verbatim_yields hc ?_
    have hk : u.kind ≠ .escape := by
      intro hk
      rw [← hu, hk] at hc
      contradiction
    rw [verbatim.eq_def]
    simp [hu, hu ▸ hk]

end Parser

end ArgTree
