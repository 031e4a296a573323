import ArgTree.Proofs.Expression.Languages
import ArgTree.Proofs.Regex.Longest

namespace ArgTree.Expression

open Regex

def digitSet : CharSet := .range '0' '9'

def signSet : CharSet := .union (.single '-') (.single '+')

def plainSet : CharSet :=
  .complement <| .union .whiteSpace <| .union (.single '\\') <| .union (.single '"') <|
    .union (.single '(') <| .union (.single ')') <| .union (.single '{') <|
    .union (.single '}') <| .union (.single '[') <| .union (.single ']') <|
    .union (.single ',') (.single '=')

theorem contains_digitSet : digitSet.contains = Char.isDigit := by
  funext c
  simp only [digitSet, CharSet.contains, Char.isDigit]
  rfl

theorem contains_single_eq : (CharSet.single a).contains c = decide (c = a) := by
  rw [Bool.eq_iff_iff]
  simp

theorem contains_plainSet : plainSet.contains = isPlain := by
  funext c
  rw [Bool.eq_iff_iff]
  simp [plainSet, isPlain, special, CharSet.contains, contains_single_eq]

theorem contains_signSet : signSet.contains c ↔ c = '-' ∨ c = '+' := by
  simp [signSet]

-- The length of an optional sign and of what `f` measures behind it.
def signed (f : List Char → Option Nat) : List Char → Option Nat
  | []      => f []
  | x :: xs => if signSet.contains x then (f xs).map (1 + ·) else f (x :: xs)

theorem matchLength?_signed {f : List Char → Option Nat} {r : Regex}
    (hr : ∀ c : Cursor, r.run c (fun d => some d.taken) = (f c.rest).map (c.taken + ·))
    (hf : ∀ x xs, signSet.contains x → f (x :: xs) = none) (cs : List Char) :
    (seq textStart (seq (atMostOne signSet) r)).matchLength? cs = signed f cs := by
  cases cs
  case nil => simp [matchLength?, run, atMostOne, Cursor.start, firstOf, hr, signed]
  case cons x xs =>
    simp only [matchLength?, run, atMostOne, Cursor.start, hr, signed]
    by_cases hx : signSet.contains x
    case pos => cases f xs <;> simp [hx, hf, firstOf]
    case neg => simp [hx, firstOf]

theorem not_isDigit_of_sign (h : signSet.contains x) : ¬x.isDigit := by
  rcases contains_signSet.mp h with rfl | rfl <;> decide

-- The length of the digits in front of a point, of the point and of the digits behind it.
def pointed (cs : List Char) : Option Nat :=
  match cs.dropWhile Char.isDigit with
  | '.' :: fs => (munch Char.isDigit fs).map ((cs.takeWhile Char.isDigit).length + 1 + ·)
  | _         => none

theorem run_pointed (c : Cursor) :
    (seq (star true (set digitSet)) (seq (set (.single '.')) (plus digitSet))).run c
      (fun d => some d.taken) = (pointed c.rest).map (c.taken + ·) := by
  have hk : ∀ d : Cursor, (seq (set (.single '.')) (plus digitSet)).run d (fun e => some e.taken) =
      match d.rest with
      | '.' :: fs => (munch Char.isDigit fs).map (d.taken + 1 + ·)
      | _         => none := by
    intro d
    simp only [run_seq, run_set, run_plus_end, contains_digitSet, contains_single_eq]
    cases d.rest
    case nil => rfl
    case cons x xs => by_cases hx : x = '.' <;> simp [hx]
  have ⟨b, hb⟩ := run_star_set_eq (s := digitSet) (c := c)
    (k := fun d => (seq (set (.single '.')) (plus digitSet)).run d fun e => some e.taken) <|
    .inl <| by
    intro d x xs hd hx
    have : x ≠ '.' := fun he => absurd (contains_digitSet ▸ hx) (he ▸ by decide)
    simp [hk, hd, this]
  rw [run_seq, hb, hk, contains_digitSet]
  simp only [pointed]
  split <;> simp_all [Option.map_map, Function.comp_def, Nat.add_assoc]

theorem longest_signed {f : List Char → Option Nat} {L : List Char → Prop} (h : Longest f L)
    (hL : ∀ t, L t → ∃ x xs, t = x :: xs ∧ ¬signSet.contains x) :
    Longest (signed f) fun t => ∃ sign u, t = sign ++ u ∧ IsSign sign ∧ L u where
  sound {cs n} hn := by
    cases cs
    case nil =>
      have ⟨h₁, h₂⟩ := h.sound hn
      exact ⟨h₁, [], _, rfl, .inl rfl, h₂⟩
    case cons x xs =>
      simp only [signed] at hn
      split at hn
      case isTrue hx =>
        have ⟨m, hm, he⟩ := Option.map_eq_some_iff.mp hn
        have ⟨h₁, h₂⟩ := h.sound hm
        subst he
        refine ⟨by simp; omega, [x], xs.take m, by simp [Nat.add_comm 1], ?_, h₂⟩
        rcases contains_signSet.mp hx with rfl | rfl
        · exact .inr <| .inl rfl
        · exact .inr <| .inr rfl
      case isFalse =>
        have ⟨h₁, h₂⟩ := h.sound hn
        exact ⟨h₁, [], _, rfl, .inl rfl, h₂⟩
  longest {t cs} ht := by
    rintro ⟨sign, u, rfl, hs, hu⟩
    have ⟨y, ys, hy, hy'⟩ := hL u hu
    have ⟨vs, hv⟩ := ht
    rcases hs with rfl | rfl | rfl
    case inl =>
      have ⟨n, hn, hle⟩ := h.longest ht hu
      refine ⟨n, ?_, hle⟩
      rw [← hv, hy] at hn ⊢
      simpa [signed, hy'] using hn
    all_goals
      have ⟨n, hn, hle⟩ := h.longest (List.prefix_append u vs) hu
      exact ⟨1 + n, by simp [← hv, signed, contains_signSet, hn], by simp; omega⟩

theorem longest_pointed : Longest pointed fun t => ∃ whole fraction, t = whole ++ '.' :: fraction ∧
    (∀ c ∈ whole, c.isDigit) ∧ fraction ≠ [] ∧ ∀ c ∈ fraction, c.isDigit where
  sound {cs n} hn := by
    simp only [pointed] at hn
    split at hn <;> simp at hn
    case h_1 fs hd =>
      have ⟨m, hm, he⟩ := hn
      have ⟨h₁, h₂⟩ := (longest_munch _).sound hm
      have hc := List.takeWhile_append_dropWhile (p := Char.isDigit) (l := cs)
      rw [hd] at hc
      have hl := congrArg List.length hc
      simp only [List.length_append, List.length_cons] at hl
      refine ⟨by omega, cs.takeWhile Char.isDigit, fs.take m, ?_,
        List.all_eq_true.mp List.all_takeWhile, h₂⟩
      generalize cs.takeWhile Char.isDigit = w at he hc
      subst he hc
      simp [List.take_append, Nat.add_assoc, Nat.add_comm 1, List.take_of_length_le]
  longest {t cs} ht := by
    rintro ⟨whole, fraction, rfl, hw, hf⟩
    have ⟨vs, hv⟩ := ht
    have ⟨m, hm, hle⟩ := (longest_munch _).longest (List.prefix_append fraction vs) hf
    refine ⟨whole.length + 1 + m, ?_, by simp; omega⟩
    rw [List.append_assoc, List.cons_append] at hv
    have hd : ('.').isDigit = false := by decide
    simp [← hv, pointed, List.takeWhile_append_of_pos hw, List.dropWhile_append_of_pos hw, hm, hd]

-- The length of a text up to and including the quote that ends it.
def quoteEnd : List Char → Option Nat
  | []              => none
  | '"' :: _        => some 1
  | '\\' :: []      => none
  | '\\' :: c :: cs => if c = '\n' then none else (quoteEnd cs).map (2 + ·)
  | _ :: cs         => (quoteEnd cs).map (1 + ·)

def innerSet : CharSet := .complement <| .union (.single '"') (.single '\\')

theorem contains_innerSet : innerSet.contains c ↔ c ≠ '"' ∧ c ≠ '\\' := by
  simp [innerSet]

theorem eq_of_not_inner (h : ¬innerSet.contains c) : c = '"' ∨ c = '\\' := by
  rw [contains_innerSet] at h
  exact Decidable.or_iff_not_not_and_not.mpr h

theorem quoteEnd_cons_of_inner (h : innerSet.contains c) :
    quoteEnd (c :: cs) = (quoteEnd cs).map (1 + ·) := by
  have ⟨h₁, h₂⟩ := contains_innerSet.mp h
  rw [quoteEnd] <;> simp_all

theorem quoteEnd_eq_dropWhile (cs : List Char) :
    quoteEnd cs = (quoteEnd (cs.dropWhile innerSet.contains)).map
      ((cs.takeWhile innerSet.contains).length + ·) := by
  induction cs
  case nil => rfl
  case cons c cs hi =>
    by_cases hc : innerSet.contains c
    case neg => simp [hc]
    case pos =>
      rw [quoteEnd_cons_of_inner hc, hi]
      simp [hc, Option.map_map, Function.comp_def]
      grind

-- A `\` with the character that it protects, and what follows up to the next `\` or quote.
def protectedPart : Regex :=
  seq (set (.single '\\')) (seq (set .anyButNewline) (star true (set innerSet)))

def closing (ahead : List Char) (c : Cursor) : Option Nat :=
  iterate true (protectedPart.run · ·)
    (fun d => (set (.single '"')).run d fun e => some e.taken) ahead c

theorem closing_cons (y : Char) (ahead : List Char) (c : Cursor) :
    closing (y :: ahead) c =
      firstOf (protectedPart.run c fun d => if c.taken < d.taken then closing ahead d else none)
        fun _ => (set (.single '"')).run c fun e => some e.taken :=
  rfl

theorem run_protectedPart_of_ne (hc : c.rest = x :: xs) (hx : x ≠ '\\')
    (k : Cursor → Option Nat) : protectedPart.run c k = none := by
  simp [protectedPart, run_seq, run_set, contains_single_eq, hc, hx]

theorem run_protectedPart_newline (hc : c.rest = '\\' :: '\n' :: xs) (k : Cursor → Option Nat) :
    protectedPart.run c k = none := by
  simp [protectedPart, run_seq, run_set, contains_single_eq, hc, CharSet.anyButNewline,
    CharSet.contains]

theorem run_protectedPart (hc : c.rest = '\\' :: x :: xs) (hx : x ≠ '\n')
    (k : Cursor → Option Nat) :
    protectedPart.run c k = (star true (set innerSet)).run ⟨some x, c.taken + 2, xs⟩ k := by
  simp [protectedPart, run_seq, run_set, contains_single_eq, hc, CharSet.anyButNewline,
    CharSet.contains, hx]

theorem closing_eq_none_of_inner {c : Cursor} (hc : c.rest = x :: xs) (hx : innerSet.contains x)
    (ahead : List Char) : closing ahead c = none := by
  have ⟨h₁, h₂⟩ := contains_innerSet.mp hx
  cases ahead
  case nil  => simp [closing, iterate, run_set, contains_single_eq, hc, h₁]
  case cons =>
    simp [closing_cons, run_protectedPart_of_ne hc h₂, firstOf, run_set, contains_single_eq, hc, h₁]

theorem closing_backslash {y : Char} (ahead : List Char) (x : Char) (xs : List Char)
    (hl : xs.length ≤ ahead.length)
    (hi : ∀ c : Cursor, c.rest.length ≤ ahead.length →
      (∀ x xs, c.rest = x :: xs → ¬innerSet.contains x) →
        closing ahead c = (quoteEnd c.rest).map (c.taken + ·)) :
    closing (y :: ahead) ⟨before, taken, '\\' :: x :: xs⟩ =
      (quoteEnd ('\\' :: x :: xs)).map (taken + ·) := by
  rw [closing_cons]
  by_cases hn : x = '\n'
  case pos =>
    subst hn
    rw [run_protectedPart_newline rfl]
    simp [run_set, quoteEnd, firstOf, contains_single_eq]
  case neg =>
    obtain ⟨b, hb⟩ := run_star_set_eq (s := innerSet) (c := ⟨some x, taken + 2, xs⟩)
      (k := fun d => if taken < d.taken then closing ahead d else none) <| .inl <| by
      intro d y ys hd hy
      simp [closing_eq_none_of_inner hd hy]
    have hd := (List.dropWhile_suffix innerSet.contains (l := xs)).length_le
    have hc := hi ⟨b, taken + 2 + (xs.takeWhile innerSet.contains).length,
      xs.dropWhile innerSet.contains⟩ (Nat.le_trans hd hl) fun _ _ => not_of_dropWhile_eq_cons
    have ht : taken < taken + 2 + (xs.takeWhile innerSet.contains).length := by omega
    rw [run_protectedPart rfl hn, hb]
    simp only [hc, ht, ↓reduceIte, quoteEnd, hn, quoteEnd_eq_dropWhile xs, Option.map_map]
    cases quoteEnd (xs.dropWhile innerSet.contains)
    case none   => simp [run_set, contains_single_eq, firstOf]
    case some n => simp [firstOf]; omega

-- Each round of the repetition takes at least one character, so that it never runs out of rounds.
theorem closing_eq (ahead : List Char) (c : Cursor) (hl : c.rest.length ≤ ahead.length)
    (hx : ∀ x xs, c.rest = x :: xs → ¬innerSet.contains x) :
    closing ahead c = (quoteEnd c.rest).map (c.taken + ·) := by
  induction ahead generalizing c
  case nil =>
    have : c.rest = [] := List.length_eq_zero_iff.mp (Nat.le_zero.mp hl)
    simp [closing, iterate, this, run_set, quoteEnd]
  case cons y ahead hi =>
    obtain ⟨before, taken, rest⟩ := c
    cases rest
    case nil => simp [closing_cons, protectedPart, run_seq, run_set, quoteEnd, firstOf]
    case cons x xs =>
      rcases eq_of_not_inner <| hx x xs rfl with rfl | rfl
      case inl =>
        rw [closing_cons, run_protectedPart_of_ne rfl (by decide)]
        simp [run_set, quoteEnd, firstOf, contains_single_eq]
      case inr =>
        cases xs
        case nil =>
          simp [closing_cons, protectedPart, run_seq, run_set, quoteEnd, firstOf,
            contains_single_eq]
        case cons x xs =>
          exact closing_backslash ahead x xs (by simp at hl; omega) hi

theorem run_quoteEnd (c : Cursor) :
    (seq (star true (set innerSet)) (seq (star true protectedPart) (set (.single '"')))).run c
      (fun d => some d.taken) = (quoteEnd c.rest).map (c.taken + ·) := by
  have ⟨b, hb⟩ := run_star_set_eq (s := innerSet) (c := c) (k := fun d => closing d.rest d) <|
    .inl fun d x xs hd hx => closing_eq_none_of_inner hd hx _
  have hc := closing_eq (c.rest.dropWhile innerSet.contains)
    ⟨b, c.taken + (c.rest.takeWhile innerSet.contains).length, c.rest.dropWhile innerSet.contains⟩
    (Nat.le_refl _) fun _ _ => not_of_dropWhile_eq_cons
  rw [quoteEnd_eq_dropWhile, Option.map_map]
  refine Eq.trans (hb.trans hc) ?_
  simp [Function.comp_def, Nat.add_assoc]

theorem quoteEnd_sound (h : quoteEnd cs = some n) :
    n ≤ cs.length ∧ ∃ body, cs.take n = body ++ ['"'] ∧ QuoteBody body := by
  fun_induction quoteEnd cs generalizing n
  case case1 | case3 | case4 => contradiction
  case case2 =>
    cases h
    exact ⟨by simp, [], rfl, .nil⟩
  case case5 x xs hx hi =>
    have ⟨m, hm, he⟩ := Option.map_eq_some_iff.mp h
    have ⟨hle, body, hb, hq⟩ := hi hm
    subst he
    exact ⟨by simp; omega, '\\' :: x :: body, by simp [Nat.add_comm 2, hb], .escaped hx hq⟩
  case case6 x xs hx₁ hx₂ hx₃ hi =>
    have ⟨m, hm, he⟩ := Option.map_eq_some_iff.mp h
    have ⟨hle, body, hb, hq⟩ := hi hm
    subst he
    refine ⟨by simp; omega, x :: body, by simp [Nat.add_comm 1, hb], .plain hx₁ ?_ hq⟩
    cases xs
    case nil  => exact fun he => hx₂ he rfl
    case cons => exact fun he => hx₃ _ _ he rfl

theorem quoteEnd_append (h : QuoteBody body) :
    quoteEnd (body ++ '"' :: cs) = some (body.length + 1) := by
  induction h
  case nil => rfl
  case plain c t h₁ h₂ hq hi =>
    rw [List.cons_append, quoteEnd_cons_of_inner (contains_innerSet.mpr ⟨h₁, h₂⟩), hi]
    simp [Nat.add_comm 1]
  case escaped c t hc hq hi => simp [quoteEnd, hc, hi, Nat.add_comm 2]

theorem longest_quoteEnd :
    Longest quoteEnd fun t => ∃ body, t = body ++ ['"'] ∧ QuoteBody body where
  sound := quoteEnd_sound
  longest {t cs} ht := by
    rintro ⟨body, rfl, hq⟩
    have ⟨us, hu⟩ := ht
    exact ⟨body.length + 1, by simp [← hu, quoteEnd_append hq], by simp⟩

theorem matchLength?_single (x : Char) :
    Longest (seq textStart (set (.single x))).matchLength? (· = [x]) where
  sound {cs n} h := by
    cases cs <;> simp [matchLength?, run, Cursor.start, contains_single_eq] at h
    obtain ⟨h₁, h₂⟩ := h
    subst h₁ h₂
    exact ⟨by simp, rfl⟩
  longest {t cs} ht hL := by
    obtain ⟨us, hu⟩ := ht
    exact ⟨1, by simp [← hu, hL, matchLength?, run, Cursor.start, contains_single_eq], by simp [hL]⟩

theorem matchLength?_plus (s : CharSet) :
    (seq textStart (plus s)).matchLength? = munch s.contains := by
  funext cs
  simp [matchLength?, run, run_plus_end, Cursor.start]

-- The length of a character and of what `f` measures behind it.
def behind (x : Char) (f : List Char → Option Nat) : List Char → Option Nat
  | []      => none
  | y :: cs => if y = x then (f cs).map (1 + ·) else none

theorem matchLength?_behind {x : Char} {f : List Char → Option Nat} {r : Regex}
    (hr : ∀ c : Cursor, r.run c (fun d => some d.taken) = (f c.rest).map (c.taken + ·)) :
    (seq textStart (seq (set (.single x)) r)).matchLength? = behind x f := by
  funext cs
  cases cs <;> simp [matchLength?, run, Cursor.start, hr, contains_single_eq, behind]

theorem longest_behind {x : Char} {f : List Char → Option Nat} {L : List Char → Prop}
    (h : Longest f L) : Longest (behind x f) fun t => ∃ u, t = x :: u ∧ L u where
  sound {cs n} hn := by
    cases cs <;> simp [behind] at hn
    case cons y cs =>
      have ⟨hy, m, hm, he⟩ := hn
      have ⟨hle, hL⟩ := h.sound hm
      subst hy he
      exact ⟨by simp; omega, cs.take m, by simp [Nat.add_comm 1], hL⟩
  longest {t cs} ht := by
    rintro ⟨u, rfl, hu⟩
    have ⟨us, he⟩ := ht
    have ⟨n, hn, hle⟩ := h.longest (List.prefix_append u us) hu
    exact ⟨1 + n, by simp [← he, behind, hn], by simp; omega⟩

theorem not_sign_of_digits (h : ds ≠ [] ∧ ∀ c ∈ ds, c.isDigit) :
    ∃ x xs, ds = x :: xs ∧ ¬signSet.contains x := by
  cases ds
  case nil => exact absurd rfl h.left
  case cons d ds => exact ⟨d, ds, rfl, fun hs => not_isDigit_of_sign hs (h.right d (by simp))⟩

theorem longest_integer :
    Longest (seq textStart (seq (atMostOne signSet) (plus digitSet))).matchLength? IsInteger := by
  have he : (seq textStart (seq (atMostOne signSet) (plus digitSet))).matchLength? =
      signed (munch Char.isDigit) := by
    funext cs
    refine matchLength?_signed (fun c => contains_digitSet ▸ run_plus_end digitSet c) ?_ cs
    exact fun x xs hx => munch_cons_of_neg (not_isDigit_of_sign hx)
  rw [he]
  exact longest_signed (longest_munch _) fun _ => not_sign_of_digits

theorem longest_float :
    Longest (seq textStart (seq (atMostOne signSet) (seq (star true (set digitSet))
      (seq (set (.single '.')) (plus digitSet))))).matchLength? IsFloat := by
  have he : (seq textStart (seq (atMostOne signSet) (seq (star true (set digitSet))
      (seq (set (.single '.')) (plus digitSet))))).matchLength? = signed pointed := by
    funext cs
    refine matchLength?_signed run_pointed (fun x xs hx => ?_) cs
    have : x ≠ '.' := fun he => absurd hx (by simp [he, contains_signSet])
    simp [pointed, not_isDigit_of_sign hx, this]
  rw [he]
  refine (longest_signed longest_pointed ?_).congr fun t => ?_
  case refine_1 =>
    rintro _ ⟨whole, fraction, rfl, hw, -⟩
    cases whole
    case nil         => exact ⟨'.', fraction, rfl, by simp [contains_signSet]⟩
    case cons x whole =>
      exact ⟨x, _, rfl, fun hs => not_isDigit_of_sign hs (hw x (by simp))⟩
  case refine_2 =>
    constructor
    case mp =>
      rintro ⟨sign, _, rfl, hs, whole, fraction, rfl, h⟩
      exact ⟨sign, whole, fraction, rfl, hs, h⟩
    case mpr =>
      rintro ⟨sign, whole, fraction, rfl, hs, h⟩
      exact ⟨sign, _, rfl, hs, whole, fraction, rfl, h⟩

-- Every rule takes the longest text that it can.
theorem longest_of_mem (h : r ∈ grammar.allRules) :
    Longest r.pattern.matchLength? (language r) := by
  simp only [grammar, Grammar.allRules, rules, List.mem_append, List.mem_cons, Option.mem_toList,
    List.not_mem_nil, or_false, Option.some.injEq, rules.regex] at h
  rcases h with
    (rfl | rfl | rfl | rfl | rfl | rfl | rfl | rfl | rfl | rfl | rfl | rfl | rfl | rfl | rfl) | rfl
  case inr =>
    refine Pattern.longest_regex (r := seq textStart (plus plainSet)) (by decide +kernel) ?_
      not_language_nil
    rw [matchLength?_plus, contains_plainSet]
    exact longest_munch _
  -- the escape
  · exact Pattern.longest_regex (r := seq textStart (set (.single '\\'))) (by decide +kernel)
      (matchLength?_single _) not_language_nil
  -- the variable
  · exact Pattern.longest_regex
      (r := seq textStart (seq (set (.single '$')) (plus .wordCharacter))) (by decide +kernel)
      (matchLength?_behind (run_plus_end _) ▸ longest_behind (longest_munch _)) not_language_nil
  -- the quoted text
  · refine Pattern.longest_regex (r := seq textStart (seq (set (.single '"'))
      (seq (star true (set innerSet)) (seq (star true protectedPart) (set (.single '"'))))))
      (by decide +kernel) ?_ not_language_nil
    rw [matchLength?_behind run_quoteEnd]
    refine (longest_behind longest_quoteEnd).congr fun t => ⟨?_, ?_⟩
    · rintro ⟨_, ht, body, hu, hb⟩
      exact ⟨body, hu ▸ ht, hb⟩
    · rintro ⟨body, ht, hb⟩
      exact ⟨_, ht, body, rfl, hb⟩
  -- the brackets and the comma
  iterate 7 exact Pattern.longest_literal (by decide)
  -- white space
  · exact Pattern.longest_regex (r := seq textStart (plus .whiteSpace)) (by decide +kernel)
      (matchLength?_plus _ ▸ longest_munch _) not_language_nil
  -- the numbers
  · exact Pattern.longest_regex (r := seq textStart (seq (atMostOne signSet)
      (seq (star true (set digitSet)) (seq (set (.single '.')) (plus digitSet)))))
      (by decide +kernel) longest_float not_language_nil
  · exact Pattern.longest_regex (r := seq textStart (seq (atMostOne signSet) (plus digitSet)))
      (by decide +kernel) longest_integer not_language_nil
  -- the `=` and the lone quote
  iterate 2 exact Pattern.longest_literal (by decide)

end ArgTree.Expression
