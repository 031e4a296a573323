import ArgTree.Proofs.Parser.Failures

namespace ArgTree

open Lookahead

namespace Parser

variable {close : Kind} {depth : Nat}

-- Whether the lexeme at `n` is protected by an escape in front of it. A protected escape is no
-- escape.
def isProtected (ts : List Lexeme) : Nat → Bool
  | 0     => false
  | n + 1 => kind (ts.drop n) = .escape && !isProtected ts n

-- How many lexemes in front of the one at `n` have a kind in `p` and are not protected.
def unprotected (p : Kind → Bool) (ts : List Lexeme) (n : Nat) : Nat :=
  (List.range n).countP fun k => !isProtected ts k && p (kind (ts.drop k))

-- The lexeme at `n` closes as many brackets as were opened in front of it, and `depth` more.
structure ClosesAt (close : Kind) (depth : Nat) (ts : List Lexeme) (n : Nat) : Prop where
  kind_eq : kind (ts.drop n) = close
  free    : isProtected ts n = false
  even    : depth + unprotected (close.opening? = some ·) ts n = unprotected (· = close) ts n

@[simp]
theorem isProtected_zero (ts : List Lexeme) : isProtected ts 0 = false :=
  rfl

theorem isProtected_cons (ht : t.kind ≠ .escape) (n : Nat) :
    isProtected (t :: ts) (n + 1) = isProtected ts n := by
  induction n
  case zero      => simp [isProtected, kind, ht]
  case succ n hi => rw [isProtected, hi]; rfl

theorem isProtected_one (ht : t.kind = .escape) : isProtected (t :: ts) 1 = true := by
  simp [isProtected, kind, ht]

theorem isProtected_escape (ht : t.kind = .escape) (n : Nat) :
    isProtected (t :: u :: ts) (n + 2) = isProtected ts n := by
  induction n
  case zero      => simp [isProtected, kind, ht]
  case succ n hi => rw [isProtected, hi]; rfl

theorem unprotected_cons (ht : t.kind ≠ .escape) (p : Kind → Bool) (n : Nat) :
    unprotected p (t :: ts) (n + 1) = unprotected p ts n + if p t.kind then 1 else 0 := by
  have hk : kind (t :: ts) = t.kind := rfl
  simp [unprotected, List.range_succ_eq_map, List.countP_cons, List.countP_map, Function.comp_def,
    isProtected_cons ht, hk]

theorem unprotected_escape (ht : t.kind = .escape) {p : Kind → Bool} (hp : p .escape = false)
    (n : Nat) : unprotected p (t :: u :: ts) (n + 2) = unprotected p ts n := by
  have hr : List.range (n + 2) = 0 :: 1 :: (List.range n).map (· + 2) := by
    simp [List.range_succ_eq_map]
  have hk : kind (t :: u :: ts) = .escape := ht
  simp [unprotected, hr, List.countP_map, Function.comp_def, isProtected_escape ht,
    isProtected_one ht, hk, hp]

namespace ClosesAt

theorem zero_iff : ClosesAt close depth (t :: ts) 0 ↔ t.kind = close ∧ depth = 0 := by
  constructor
  case mp  => exact fun h => ⟨h.kind_eq, h.even⟩
  case mpr =>
    rintro ⟨hk, rfl⟩
    exact ⟨hk, rfl, rfl⟩

-- An escape keeps the next lexeme from the count.
theorem escape_iff (hc : close ≠ .escape) (ht : t.kind = .escape) :
    ClosesAt close depth (t :: u :: ts) n ↔ ∃ m, n = m + 2 ∧ ClosesAt close depth ts m := by
  have ho : close.opening? ≠ some .escape := by cases close <;> decide
  match n with
  | 0     => simp [zero_iff, ht, hc.symm]
  | 1     =>
    exact ⟨fun h => absurd h.free (by simp [isProtected_one ht]), by simp⟩
  | n + 2 =>
    constructor
    case mp  =>
      rintro ⟨hk, hp, he⟩
      rw [isProtected_escape ht] at hp
      rw [unprotected_escape ht (by simpa using ho), unprotected_escape ht (by simpa using hc.symm)]
        at he
      exact ⟨n, rfl, hk, hp, he⟩
    case mpr =>
      rintro ⟨m, hm, hk, hp, he⟩
      cases hm
      refine ⟨hk, (isProtected_escape ht n).trans hp, ?_⟩
      rwa [unprotected_escape ht (by simpa using ho),
        unprotected_escape ht (by simpa using hc.symm)]

-- Any other lexeme that does not close the region opens or closes a bracket in it, or neither.
theorem cons_iff (ht : t.kind ≠ .escape) (hn : ¬(t.kind = close ∧ depth = 0))
    (hd : depth + (if close.opening? = some t.kind then 1 else 0) =
      d + if t.kind = close then 1 else 0) :
    ClosesAt close depth (t :: ts) n ↔ ∃ m, n = m + 1 ∧ ClosesAt close d ts m := by
  match n with
  | 0     => simp [zero_iff, hn]
  | n + 1 =>
    constructor
    case mp  =>
      rintro ⟨hk, hp, he⟩
      rw [isProtected_cons ht] at hp
      simp only [unprotected_cons ht, decide_eq_true_eq] at he
      exact ⟨n, rfl, hk, hp, by omega⟩
    case mpr =>
      rintro ⟨m, hm, hk, hp, he⟩
      cases hm
      refine ⟨hk, (isProtected_cons ht n).trans hp, ?_⟩
      simp only [unprotected_cons ht, decide_eq_true_eq]
      omega

theorem lt_length (h : ClosesAt close depth ts n) (he : close ≠ .endOfText) : n < ts.length := by
  refine Nat.lt_of_not_le fun hl => he ?_
  rw [← h.kind_eq, List.drop_eq_nil_of_le hl]
  rfl

end ClosesAt

-- A row is cut behind the lexeme at the first place in `P`, into its text and what is left.
def IsCutBehind (P : Nat → Prop) (ts : List Lexeme) (text : String) (us : List Lexeme) : Prop :=
  ∃ n, IsLeast {n | P n} n ∧ us = ts.drop (n + 1) ∧ text = Lexeme.textOf (ts.take (n + 1))

theorem isCutBehind_append_iff {P Q : Nat → Prop} (front : List Lexeme)
    (h : ∀ n, P n ↔ ∃ m, n = m + front.length ∧ Q m) :
    IsCutBehind P (front ++ ts) text us ↔
      ∃ v, IsCutBehind Q ts v us ∧ Lexeme.textOf front ++ v = text := by
  have hf (n : Nat) : (front ++ ts).drop (n + front.length + 1) = ts.drop (n + 1) ∧
      Lexeme.textOf ((front ++ ts).take (n + front.length + 1)) =
        Lexeme.textOf front ++ Lexeme.textOf (ts.take (n + 1)) := by
    rw [Nat.add_comm n, Nat.add_assoc, List.drop_length_add_append, List.take_length_add_append,
      Lexeme.textOf_append]
    exact ⟨rfl, rfl⟩
  constructor
  case mp  =>
    rintro ⟨_, ⟨hp, hl⟩, rfl, rfl⟩
    obtain ⟨m, rfl, hq⟩ := (h _).mp hp
    refine ⟨_, ⟨m, ⟨hq, fun k hk => ?_⟩, (hf m).left, rfl⟩, (hf m).right.symm⟩
    exact Nat.le_of_add_le_add_right (hl ((h _).mpr ⟨k, rfl, hk⟩))
  case mpr =>
    rintro ⟨_, ⟨m, ⟨hq, hl⟩, rfl, rfl⟩, rfl⟩
    refine ⟨_, ⟨(h _).mpr ⟨m, rfl, hq⟩, fun k hk => ?_⟩, (hf m).left.symm, (hf m).right.symm⟩
    obtain ⟨j, rfl, hj⟩ := (h k).mp hk
    exact Nat.add_le_add_right (hl hj) _

theorem isCutBehind_escape_iff (hc : close ≠ .escape) (ht : t.kind = .escape) :
    IsCutBehind (ClosesAt close depth (t :: u :: ts)) (t :: u :: ts) text us ↔
      ∃ v, IsCutBehind (ClosesAt close depth ts) ts v us ∧ t.text ++ u.text ++ v = text := by
  refine (isCutBehind_append_iff [t, u] fun _ => ClosesAt.escape_iff hc ht).trans ?_
  simp [Lexeme.textOf, String.append_assoc]

theorem isCutBehind_cons_iff (d : Nat) (ht : t.kind ≠ .escape) (hn : ¬(t.kind = close ∧ depth = 0))
    (hd : depth + (if close.opening? = some t.kind then 1 else 0) =
      d + if t.kind = close then 1 else 0) :
    IsCutBehind (ClosesAt close depth (t :: ts)) (t :: ts) text us ↔
      ∃ v, IsCutBehind (ClosesAt close d ts) ts v us ∧ t.text ++ v = text := by
  refine (isCutBehind_append_iff [t] fun _ => ClosesAt.cons_iff ht hn hd).trans ?_
  simp [Lexeme.textOf]

-- A region ends behind the first lexeme that closes it.
theorem verbatim_yields_iff_isCutBehind (hc : close ≠ .escape) (he : close ≠ .endOfText) :
    (verbatim close depth ts).Yields text us ↔
      IsCutBehind (ClosesAt close depth ts) ts text us := by
  have ho : close.opening? ≠ some close := by cases close <;> decide
  -- The scan is at the end, at an escape that is last, at one that is not, at the bracket that
  -- closes the region, at one that closes another one, at one that opens one, or at anything else.
  fun_induction verbatim close depth ts generalizing text us
  case case1 =>
    refine iff_of_false Outcome.yields_fail ?_
    rintro ⟨n, hn, _⟩
    exact absurd (hn.left.lt_length he) (Nat.not_lt_zero n)
  case case2 t ht =>
    refine iff_of_false Outcome.yields_fail ?_
    rintro ⟨n, hn, _⟩
    obtain rfl := Nat.lt_one_iff.mp (hn.left.lt_length he)
    exact hc ((ClosesAt.zero_iff.mp hn.left).left.symm.trans ht)
  case case3 ht _ _ hi =>
    rw [isCutBehind_escape_iff hc ht]
    simp [hi]
  case case4 t ts ht hk =>
    have hz : ClosesAt close 0 (t :: ts) 0 := ClosesAt.zero_iff.mpr ⟨hk, rfl⟩
    rw [Outcome.yields_ok]
    constructor
    case mp  =>
      rintro ⟨rfl, rfl⟩
      exact ⟨0, ⟨hz, fun _ _ => Nat.zero_le _⟩, rfl, by simp [Lexeme.textOf]⟩
    case mpr =>
      rintro ⟨n, ⟨_, hl⟩, rfl, rfl⟩
      obtain rfl := Nat.le_zero.mp (hl hz)
      exact ⟨by simp [Lexeme.textOf], rfl⟩
  case case5 t ts ht hk depth hi =>
    rw [isCutBehind_cons_iff depth ht (by simp) (by simp [hk, ho])]
    simp [hi]
  case case6 depth t ts ht hk hop hi =>
    rw [isCutBehind_cons_iff (depth + 1) ht (by simp [hk]) (by simp [hk, hop])]
    simp [hi]
  case case7 depth t ts ht hk hop hi =>
    rw [isCutBehind_cons_iff depth ht (by simp [hk]) (by simp [hk, hop])]
    simp [hi]

end Parser

-- Where no rule is ignored, the texts of the tokens are the text that they were cut from.
theorem Grammar.Tiles.eq_textOf_append {g : Grammar} (h : g.Tiles cs ts rest)
    (hi : ∀ r ∈ g.allRules, r.ignored = false) (start : Nat) :
    cs = (Lexeme.textOf ((Tile.tokens start ts).map (·.toLexeme))).toList ++ rest := by
  induction h generalizing start
  case nil => rfl
  case cons t _ _ _ _ hc _ ih =>
    have hr := hi t.rule hc.rule_mem
    simp [Tile.tokens, hr, Lexeme.textOf_cons, hc.splits, ← ih]

namespace TokenSequence

open ArgTree.Parser

variable {s : TokenSequence} {close : Kind}

theorem textOf_lexemes_of_ofGrammar {g : Grammar} {source : String}
    (hs : ofGrammar g source = .ok s) (hi : ∀ r ∈ g.allRules, r.ignored = false) :
    Lexeme.textOf s.lexemes = source := by
  simp only [ofGrammar] at hs
  split at hs <;> cases hs
  case h_1 lexed hl =>
    obtain ⟨ts, ht, rfl⟩ := Grammar.exists_tiles_of_lex hl
    have he := ht.eq_textOf_append hi 0
    rw [List.append_nil] at he
    exact String.toList_injective he.symm

-- The text of the token in front of a position.
def textBefore (s : TokenSequence) (pos : Nat) : String :=
  if pos = 0 then "" else s.textAt (pos - 1)

theorem readLevel_verbatim_eq_ok_iff :
    s.readLevel pos (.bracket close) first true = .ok (next, vs) ↔
    ∃ text rest, (verbatim close 0 (s.lexemesFrom pos)).Yields text rest ∧
      next = s.positionOf pos rest ∧ vs = [.str (s.textBefore pos ++ text)] := by
  simp only [readLevel, levelOutcome, ↓reduceIte, textBefore]
  cases verbatim close 0 (s.lexemesFrom pos)
  case error => simp [bind, Except.bind, Outcome.Yields]
  case ok r  => simp [bind, Except.bind, pure, Except.pure, Outcome.Yields, eq_comm]

theorem readLevel_verbatim_eq_error_iff : s.readLevel pos (.bracket close) first true = .error e ↔
    ∃ f, verbatim close 0 (s.lexemesFrom pos) = .error f ∧ s.errorOf f = e := by
  simp only [readLevel, levelOutcome, ↓reduceIte]
  cases verbatim close 0 (s.lexemesFrom pos)
  case error => simp [bind, Except.bind]
  case ok r  => simp [bind, Except.bind, pure, Except.pure]

-- What stands in front of a position and some lexemes behind it lie side by side.
theorem textBefore_append_infix (s : TokenSequence) (pos n : Nat) :
    (s.textBefore pos ++ Lexeme.textOf ((s.lexemesFrom pos).take n)).toList <:+:
      (Lexeme.textOf s.lexemes).toList := by
  suffices hu : ∃ us, us <:+: s.lexemes ∧
      s.textBefore pos ++ Lexeme.textOf ((s.lexemesFrom pos).take n) = Lexeme.textOf us by
    obtain ⟨us, ⟨before, behind, hl⟩, he⟩ := hu
    refine ⟨(Lexeme.textOf before).toList, (Lexeme.textOf behind).toList, ?_⟩
    rw [he, ← hl, Lexeme.textOf_append, Lexeme.textOf_append, String.toList_append,
      String.toList_append]
  have hi (pos n : Nat) : (s.lexemesFrom pos).take n <:+: s.lexemes :=
    (List.take_prefix ..).isInfix.trans (List.drop_suffix ..).isInfix
  cases pos
  case zero     => exact ⟨_, hi 0 n, String.empty_append⟩
  case succ pos =>
    refine ⟨_, hi pos (n + 1), ?_⟩
    rw [textBefore, if_neg (Nat.succ_ne_zero pos), Nat.add_sub_cancel, lexemesFrom_succ, textAt]
    cases s.lexemesFrom pos
    case nil  => simp [Lexeme.textOf]
    case cons => exact (Lexeme.textOf_cons ..).symm

-- A verbatim region is the text up to its closing bracket, with the text in front of it. If nothing
-- closes it, the text ends too soon.
theorem readLevel_verbatim_iff_isLeast (s : TokenSequence) (pos : Nat) (first : Option Value)
    (hc : close ≠ .escape) (he : close ≠ .endOfText) :
    let closes := ClosesAt close 0 (s.lexemesFrom pos)
    let result := s.readLevel pos (.bracket close) first true
    (∀ next vs, result = .ok (next, vs) ↔ ∃ n, IsLeast {n | closes n} n ∧ next = pos + n + 1 ∧
      vs = [.str (s.textBefore pos ++ Lexeme.textOf ((s.lexemesFrom pos).take (n + 1)))]) ∧
    ((∀ n, ¬closes n) →
      ∃ message, result = .error (s.errorAt s.tokens.length .unexpectedEnd message)) ∧
    ∀ g source, ofGrammar g source = .ok s → (∀ r ∈ g.allRules, r.ignored = false) →
      ∀ next vs, result = .ok (next, vs) → ∃ text, vs = [.str text] ∧
        text.toList <:+: source.toList := by
  intro closes result
  have hp {n} (hn : closes n) :
      s.positionOf pos ((s.lexemesFrom pos).drop (n + 1)) = pos + n + 1 := by
    have := hn.lt_length he
    simp only [positionOf, List.length_drop]
    omega
  have hok next vs : result = .ok (next, vs) ↔ ∃ n, IsLeast {n | closes n} n ∧ next = pos + n + 1 ∧
      vs = [.str (s.textBefore pos ++ Lexeme.textOf ((s.lexemesFrom pos).take (n + 1)))] := by
    simp only [result, readLevel_verbatim_eq_ok_iff, verbatim_yields_iff_isCutBehind hc he]
    constructor
    case mp  =>
      rintro ⟨_, _, ⟨n, hn, rfl, rfl⟩, rfl, rfl⟩
      exact ⟨n, hn, hp hn.left, rfl⟩
    case mpr =>
      rintro ⟨n, hn, rfl, rfl⟩
      exact ⟨_, _, ⟨n, hn, rfl, rfl⟩, (hp hn.left).symm, rfl⟩
  refine ⟨hok, fun hn => ?_, fun g source hs hi next vs h => ?_⟩
  case refine_1 =>
    cases hr : result
    case ok r    =>
      obtain ⟨n, hl, _⟩ := (hok r.1 r.2).mp hr
      exact absurd hl.left (hn n)
    case error e =>
      obtain ⟨f, hf, rfl⟩ := readLevel_verbatim_eq_error_iff.mp hr
      obtain ⟨hk, hr⟩ := verbatim_cutShort _ _ _ f hf
      exact ⟨f.cause.message, by
        rw [errorOf, errorAt, hk, hr, lexemesFrom_eq_nil_iff.mpr (Nat.le_refl _)]⟩
  case refine_2 =>
    obtain ⟨n, _, _, rfl⟩ := (hok next vs).mp h
    exact ⟨_, rfl, textOf_lexemes_of_ofGrammar hs hi ▸ s.textBefore_append_infix pos (n + 1)⟩

-- The first closing bracket is escaped, and the second one closes the bracket opened inside.
theorem readLevel_verbatim_iff_isLeast_escape : ∃ s, ofSource "(a\\)(b))c" = .ok s ∧
    Kind.rParen ≠ .escape ∧ Kind.rParen ≠ .endOfText ∧
    s.readLevel 1 (.bracket .rParen) none true = .ok (8, [.str "(a\\)(b))"]) ∧
    IsLeast {n | ClosesAt .rParen 0 (s.lexemesFrom 1) n} 6 ∧
    "(a\\)(b))".toList <:+: "(a\\)(b))c".toList := by
  have hr : (ofSource "(a\\)(b))c").bind (·.readLevel 1 (.bracket .rParen) none true) =
      .ok (8, [.str "(a\\)(b))"]) := by cbv
  cases hs : ofSource "(a\\)(b))c" <;> simp only [hs, Except.bind] at hr
  case error => contradiction
  case ok s  =>
    have hc : Kind.rParen ≠ .escape := by decide
    have he : Kind.rParen ≠ .endOfText := by decide
    obtain ⟨hok, _, hi⟩ := s.readLevel_verbatim_iff_isLeast 1 none hc he
    obtain ⟨n, hn, hl, _⟩ := (hok _ _).mp hr
    obtain rfl : n = 6 := by omega
    obtain ⟨_, hv, hi⟩ := hi _ _ hs (by decide) _ _ hr
    cases hv
    exact ⟨s, rfl, hc, he, hr, hn, hi⟩

end TokenSequence

end ArgTree
