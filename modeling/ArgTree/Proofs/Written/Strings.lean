import ArgTree.Proofs.Written.Lexemes

namespace ArgTree

open Expression ArgTree.Parser Lookahead

namespace Parser

-- The value is `v`, or it is a list that has `v` at its front, maybe further in.
inductive Leads (v : Value) : Value → Prop
  | refl : Leads v v
  | wrap : Leads v w → Leads v (.list (w :: ws))

theorem Leads.trans (h : Leads u v) (h' : Leads v w) : Leads u w := by
  induction h'
  case refl      => exact h
  case wrap _ hi => exact hi.wrap

theorem Leads.str_eq (h : Leads (.str s) (.str t)) : t = s := by
  cases h
  rfl

-- A group has the item at its front that was read in front of it.
def KeepsFirst (inner : Inner) : Prop :=
  ∀ c v opener ts group us, (inner (.group c (some v)) opener ts).Yields group us → Leads v group

theorem ReadsItems.leads {inner : Inner} (hi : KeepsFirst inner)
    (h : ReadsItems inner l last ts vs us) (hv : last.getLast? = some v) :
    ∃ w ∈ vs.head?, Leads v w := by
  induction h generalizing v
  case ends | closes | lacks => exact ⟨v, by simpa using hv, .refl⟩
  case delimiter ih => exact ih hv
  case regroup last _ _ _ _ hg _ ih =>
    match last, hv with
    | [_], hv =>
      cases hv
      have ⟨w, hw, h⟩ := ih rfl
      exact ⟨w, hw, (hi _ _ _ _ _ _ hg).trans h⟩
    | _ :: u :: last, hv => exact ih (by simpa using hv)
  case item ih => exact ih (by rw [List.getLast?_cons, hv, Option.getD_some])

theorem nested_keepsFirst (depth : Nat) : KeepsFirst (nested depth) := by
  induction depth
  case zero => exact fun _ _ _ _ _ _ h => absurd h Outcome.yields_fail
  case succ d hi =>
    intro c v opener ts group us h
    obtain ⟨_, hd, h⟩ := nested_yields_iff.mp h
    cases hd
    cases h
    case group vs h =>
      have ⟨w, hw, hl⟩ := h.items.leads hi rfl
      cases vs <;> cases hw
      exact hl.wrap

theorem Escaped.of_append (he : ∀ e ∈ es, e.kind = .escape) (ht : t.kind ≠ .escape) :
    Escaped (es ++ [t]) := by
  induction es
  case nil => exact .last ht
  case cons e es hi =>
    rw [List.forall_mem_cons] at he
    exact .escape he.left (hi he.right)

end Parser

namespace Written

theorem exists_lexeme_of_isBare (h : isBare s) : ∃ t, Lexes s.toList [t] ∧ t.kind.isElement ∧
    t.value = .str s := by
  simp only [isBare] at h
  split at h <;> try contradiction
  case h_1 k hk =>
    obtain ⟨ts, hl, hm⟩ := kinds?_eq_some_iff.mp hk
    obtain ⟨t, rfl, rfl⟩ := List.map_eq_singleton_iff.mp hm
    obtain ⟨_, ht⟩ := hl.takes_of_mem List.mem_cons_self
    have he : t.kind.isElement ∧ t.kind ≠ .number := by
      simp only [Bool.or_eq_true, decide_eq_true_eq] at h
      rcases h with (h | h) | h <;> rw [h] <;> decide
    have hs : s = t.text := by
      have := hl.eq_toList_textOf
      simpa [Lexeme.textOf] using String.toList_injective this
    exact ⟨t, hl, he.left, hs ▸ ht.value_eq_text he.right⟩

theorem exists_lexeme_of_isKey (h : isKey k) : ∃ t, Lexes k.toList [t] ∧ t.kind.isElement ∧
    t.text = k := by
  simp only [isKey] at h
  split at h <;> try contradiction
  case h_1 hk =>
    obtain ⟨ts, hl, hm⟩ := kinds?_eq_some_iff.mp hk
    obtain ⟨t, rfl, rfl⟩ := List.map_eq_singleton_iff.mp hm
    have hs := String.toList_injective hl.eq_toList_textOf
    exact ⟨t, hl, h, by simpa [Lexeme.textOf] using hs.symm⟩

theorem exists_escaped_of_isEscapable (h : isEscapable s) :
    ∃ run, Lexes s.toList run ∧ Escaped run := by
  simp only [isEscapable] at h
  split at h <;> try contradiction
  case h_1 hk =>
    obtain ⟨ts, hl, rfl⟩ := kinds?_eq_some_iff.mp hk
    rcases List.eq_nil_or_concat ts with rfl | ⟨es, t, rfl⟩
    case inl => contradiction
    case inr =>
      obtain ⟨ht, he⟩ : t.kind ≠ .escape ∧ ∀ e ∈ es, e.kind = .escape := by simpa using h
      exact ⟨_, hl, List.concat_eq_append ▸ .of_append he ht⟩

theorem kind_of_paren (h : language r ('(' :: u)) : r.kind = .lParen := by
  cases hk : r.kind
  case lParen => rfl
  case var | number | word =>
    exact absurd (isPlain_of_isRun (by rw [hk]; rfl) h '(' List.mem_cons_self) (by decide)
  all_goals simp only [language, hk] at h
  case whitespace => exact absurd (h.right '(' List.mem_cons_self) (by decide)
  case quote =>
    obtain ⟨_, he, _⟩ := h
    exact absurd (List.cons.inj he).left (by decide)
  all_goals exact absurd (List.cons.inj h).left (by decide)

-- What is read behind a parenthesis at the start of an expression is a region, and whatever value
-- the whole expression has begins with its text.
theorem exists_region_of_reads (h : ReadsLevel (nested d) .endOfText none (t :: ts) vs [])
    (ht : t.kind = .lParen) : ∃ region u rest, ts = region ++ u :: rest ∧
      Balanced .rParen region ∧ u.kind = .rParen ∧
        ∃ w ∈ vs.head?, Leads (.str (Lexeme.textOf (t :: region ++ [u]))) w := by
  have hi := h.items
  rw [skipWhitespace_cons_of_ne (by simp [ht])] at hi
  cases hi
  case closes hk            => contradiction
  case delimiter hk _ _ _   => simp [ht] at hk
  case regroup hk _ _ _ _   => simp [ht] at hk
  case item hr hi =>
    cases hr
    case verbatim region u hb hu _ =>
      exact ⟨region, u, _, rfl, hb, hu, hi.leads (nested_keepsFirst d) rfl⟩
    case escape hk      => simp [ht] at hk
    case hash hk _      => simp [ht] at hk
    case array hk _     => simp [ht] at hk
    case element hk _   => simp [ht, Kind.isElement] at hk
    case assignment ha  =>
      obtain ⟨ha, _⟩ := ha
      exact absurd (isElement_of_assignment? ha) (by simp [ht, Kind.isElement])

-- A string that begins with a parenthesis and is the only item of itself ends at the partner of
-- that parenthesis.
theorem exists_region_of_isVerbatim (h : isVerbatim s) : ∃ t region u,
    Lexes s.toList (t :: region ++ [u]) ∧ t.kind = .lParen ∧ Balanced .rParen region ∧
      u.kind = .rParen := by
  rw [isVerbatim, Bool.and_eq_true, decide_eq_true_eq] at h
  obtain ⟨hc, h⟩ := h
  split at h <;> try contradiction
  case h_1 hp =>
    cases of_decide_eq_true h
    obtain ⟨ts, hl⟩ := exists_lexes_of_parse hp
    obtain ⟨vs, hr, hv⟩ := (parse_eq_ok_iff_of_lexes hl).mp hp
    obtain ⟨t, hm, r, hk, hlt, hc⟩ := hl.exists_head hc
    obtain ⟨ts, rfl⟩ := List.head?_eq_some_iff.mp hm
    obtain ⟨_, hc⟩ := List.head?_eq_some_iff.mp hc
    have ht : t.kind = .lParen := hk ▸ kind_of_paren (hc ▸ hlt)
    obtain ⟨region, u, rest, rfl, hb, hu, w, hw, hf⟩ := exists_region_of_reads hr ht
    have he : s = Lexeme.textOf (t :: region ++ [u]) := by
      simp only [Value.ofTopLevel] at hv
      split at hv <;> cases hv
      case h_1 =>
        cases hw
        cases hf
        case wrap hf => exact hf.str_eq
      case h_3 =>
        cases hw
        exact hf.str_eq
    have hr : t :: (region ++ u :: rest) = t :: region ++ [u] ++ rest := by simp
    exact ⟨t, region, u, he ▸ (hr ▸ hl).of_append_left, ht, hb, hu⟩

end Written

end ArgTree
