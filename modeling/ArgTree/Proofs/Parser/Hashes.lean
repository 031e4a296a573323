import ArgTree.Proofs.Parser.Levels

namespace ArgTree

open ArgTree.Parser Lookahead

namespace Entries

variable {α : Type u}

theorem ofPairs_concat (pairs : List (String × α)) (key : String) (value : α) :
    ofPairs (pairs ++ [(key, value)]) = insert key value (ofPairs pairs) := by
  simp [ofPairs]

-- The keys stand in the order of their first pairs.
theorem keys_ofPairs (pairs : List (String × α)) :
    keys (ofPairs pairs) = (pairs.map (·.1)).eraseDups := by
  induction pairs using List.reverseRecOn
  case nil => rfl
  case append_singleton pairs e hi =>
    obtain ⟨key, value⟩ := e
    rw [ofPairs_concat, keys_insert, hi, List.map_append, List.eraseDups_append]
    by_cases hk : key ∈ pairs.map (·.1)
    case pos => simp_all [List.removeAll]
    case neg => simp_all [List.removeAll, List.eraseDups_cons]

-- A key has the value of its last pair.
theorem get?_ofPairs (pairs : List (String × α)) (key : String) :
    get? (ofPairs pairs) key = (pairs.reverse.find? (·.1 = key)).map (·.2) := by
  induction pairs using List.reverseRecOn
  case nil => rfl
  case append_singleton pairs e hi =>
    obtain ⟨k, value⟩ := e
    rw [ofPairs_concat, get?_insert, hi, List.reverse_append, List.reverse_singleton,
      List.singleton_append, List.find?_cons]
    by_cases hk : key = k
    case pos => simp [hk]
    case neg => simp [hk, Ne.symm hk]

end Entries

theorem Parser.ReadsAssignment.kind_ne_whitespace {inner : Inner}
    (h : ReadsAssignment inner ts e us) : kind ts ≠ .whitespace := by
  obtain ⟨ha, _⟩ := h
  cases ts
  case nil       => contradiction
  case cons t ts => exact (kind_ne_of_begins (.inr (.inr (isElement_of_assignment? ha)))).left

namespace TokenSequence

variable {s : TokenSequence}

-- What was read from a position on, with the position behind it.
def located (s : TokenSequence) (pos : Nat) (o : Outcome n α) : Except ParseError (Nat × α) :=
  match o with
  | .ok r    => .ok (s.positionOf pos r.rest, r.value)
  | .error f => .error (s.errorOf f)

-- Reads the hash at a position, inside which `depth` more levels may be opened, and returns the
-- position behind it and its entries.
def readHash (s : TokenSequence) (depth pos : Nat) : Except ParseError (Nat × Entries Value) :=
  s.located (pos + 1) (entries (nested depth) true [] (s.lexemesFrom (pos + 1)))

-- Reads the assignment at a position, and returns the position behind it, its key and its value.
def readAssignment (s : TokenSequence) (depth pos : Nat) :
    Except ParseError (Nat × String × Value) :=
  s.located pos (assignment (nested depth) (s.lexemesFrom pos))

theorem located_eq_ok_iff {o : Outcome n α} : s.located pos o = .ok (next, v) ↔
    ∃ rest, o.Yields v rest ∧ s.positionOf pos rest = next := by
  cases o
  case error => simp [located, Outcome.Yields]
  case ok r  => simp [located, Outcome.Yields, and_comm]

-- There is nothing but whitespace from `pos` up to `next`.
def Blank (s : TokenSequence) (pos next : Nat) : Prop :=
  pos ≤ next ∧ ∀ k, pos ≤ k → k < next → s.kindAt k = .whitespace

-- From `pos` up to `next` there are assignments with a comma between two of them, and a closing
-- bracket behind the last one. Whitespace may be around each of them.
inductive HoldsEntries (s : TokenSequence) (depth : Nat) :
    (pos : Nat) → List (String × Value) → (next : Nat) → Prop
  | last : s.Blank pos i → s.readAssignment depth i = .ok (j, e) → s.Blank j k →
           s.kindAt k = .rCurly → HoldsEntries s depth pos [e] (k + 1)
  | cons : s.Blank pos i → s.readAssignment depth i = .ok (j, e) → s.Blank j k →
           s.kindAt k = .comma → HoldsEntries s depth (k + 1) es next →
           HoldsEntries s depth pos (e :: es) next

theorem exists_lexemesFrom (s : TokenSequence) (h : s.kindAt pos ≠ .endOfText) :
    ∃ t, s.lexemesFrom pos = t :: s.lexemesFrom (pos + 1) ∧ t.kind = s.kindAt pos := by
  cases hs : s.lexemesFrom pos
  case nil       => simp [kindAt, hs, kind] at h
  case cons t ts => exact ⟨t, by rw [lexemesFrom_succ, hs]; rfl, by rw [kindAt, hs]; rfl⟩

theorem positionOf_lexemesFrom (hp : pos ≤ next) (hn : next ≤ s.tokens.length) :
    s.positionOf pos (s.lexemesFrom next) = next := by
  simp only [positionOf, length_lexemesFrom]
  omega

theorem lt_length_of_kindAt (h : s.kindAt pos ≠ .endOfText) : pos < s.tokens.length := by
  obtain ⟨t, hs, _⟩ := s.exists_lexemesFrom h
  have := congrArg List.length hs
  simp only [length_lexemesFrom, List.length_cons] at this
  omega

namespace Blank

theorem refl (s : TokenSequence) (pos : Nat) : s.Blank pos pos :=
  ⟨Nat.le_refl _, fun _ hl hr => absurd hl (Nat.not_le_of_lt hr)⟩

theorem cons (hk : s.kindAt pos = .whitespace) (h : s.Blank (pos + 1) next) : s.Blank pos next := by
  refine ⟨Nat.le_of_succ_le h.left, fun k hl hr => ?_⟩
  rcases Nat.eq_or_lt_of_le hl with rfl | hl
  case inl => exact hk
  case inr => exact h.right k hl hr

theorem skipWhitespace_eq (h : s.Blank pos next) (hn : s.kindAt next ≠ .whitespace) :
    Lookahead.skipWhitespace (s.lexemesFrom pos) = s.lexemesFrom next := by
  obtain ⟨hl, hk⟩ := h
  induction hl using Nat.decreasingInduction
  case self            => exact skipWhitespace_of_kind hn
  case of_succ pos hl ih =>
    have hw := hk pos (Nat.le_refl _) hl
    have hn : s.kindAt pos ≠ .endOfText := by rw [hw]; decide
    obtain ⟨t, hs, ht⟩ := s.exists_lexemesFrom hn
    rw [← ih fun k hp => hk k (Nat.le_of_succ_le hp), hs]
    exact skipWhitespace_cons (ht.trans hw) _

theorem exists_next (h : s.Blank pos next) (hk : s.kindAt next = k)
    (hn : k ≠ .whitespace ∧ k ≠ .endOfText) :
    ∃ t, Lookahead.skipWhitespace (s.lexemesFrom pos) = t :: s.lexemesFrom (next + 1) ∧
      t.kind = k := by
  subst hk
  obtain ⟨t, hs, ht⟩ := s.exists_lexemesFrom hn.right
  exact ⟨t, (h.skipWhitespace_eq hn.left).trans hs, ht⟩

end Blank

theorem exists_blank (s : TokenSequence) (pos : Nat) :
    ∃ next, s.Blank pos next ∧
      s.lexemesFrom next = Lookahead.skipWhitespace (s.lexemesFrom pos) := by
  generalize hs : s.lexemesFrom pos = ts
  induction ts generalizing pos
  case nil => exact ⟨pos, .refl s pos, hs⟩
  case cons t ts ih =>
    by_cases ht : t.kind = .whitespace
    case neg => exact ⟨pos, .refl s pos, by rw [hs, skipWhitespace_cons_of_ne ht]⟩
    case pos =>
      obtain ⟨next, hb, hn⟩ := ih (pos + 1) (by rw [lexemesFrom_succ, hs, List.tail_cons])
      refine ⟨next, .cons (by rw [kindAt, hs]; exact ht) hb, ?_⟩
      rwa [skipWhitespace_cons ht]

theorem reads_of_readAssignment (h : s.readAssignment depth pos = .ok (next, e)) :
    pos ≤ next ∧ ReadsAssignment (nested depth) (s.lexemesFrom pos) e (s.lexemesFrom next) := by
  obtain ⟨rest, ha, rfl⟩ := located_eq_ok_iff.mp h
  have ha := assignment_yields_iff.mp ha
  rw [lexemesFrom_positionOf (ha.suffix (nested_leavesSuffix depth))]
  exact ⟨Nat.le_add_right .., ha⟩

theorem exists_readAssignment (h : ReadsAssignment (nested depth) (s.lexemesFrom pos) e rest) :
    ∃ next, s.readAssignment depth pos = .ok (next, e) ∧ s.lexemesFrom next = rest :=
  ⟨_, located_eq_ok_iff.mpr ⟨rest, assignment_yields_iff.mpr h, rfl⟩,
    lexemesFrom_positionOf (h.suffix (nested_leavesSuffix depth))⟩

theorem reads_entry (hi : s.Blank pos i) (ha : s.readAssignment depth i = .ok (j, key, v))
    (h : ReadsEntries (nested depth) false (es.insert key v) (s.lexemesFrom j) fs us) :
    ReadsEntries (nested depth) true es (s.lexemesFrom pos) fs us := by
  have ha := (reads_of_readAssignment ha).right
  rw [← hi.skipWhitespace_eq ha.kind_ne_whitespace] at ha
  exact .entry ha h

-- What was read as the rest of a hash are the entries that it holds there, with the comma in front
-- of the first one if it was not read yet.
theorem holdsEntries_of_reads (h : ReadsEntries (nested depth) ready es ts fs us)
    (hs : s.lexemesFrom pos = ts) :
    ∃ pairs next, fs = pairs.foldl (fun es (key, v) => es.insert key v) es ∧
      s.lexemesFrom next = us ∧
      if ready then s.HoldsEntries depth pos pairs next
      else ∃ k, s.Blank pos k ∧ (s.kindAt k = .rCurly ∧ pairs = [] ∧ next = k + 1 ∨
        s.kindAt k = .comma ∧ s.HoldsEntries depth (k + 1) pairs next) := by
  induction h generalizing pos
  case close us _ ht hk =>
    obtain ⟨k, hb, hl⟩ := s.exists_blank pos
    rw [hs, ht] at hl
    have hn : s.lexemesFrom (k + 1) = us := by rw [lexemesFrom_succ, hl, List.tail_cons]
    refine ⟨[], k + 1, rfl, hn, k, hb, .inl ⟨?_, rfl, rfl⟩⟩
    rw [kindAt, hl]
    exact hk
  case comma ht hk _ ih =>
    obtain ⟨k, hb, hl⟩ := s.exists_blank pos
    rw [hs, ht] at hl
    obtain ⟨pairs, next, hf, hn, hp⟩ := ih (by rw [lexemesFrom_succ, hl, List.tail_cons])
    refine ⟨pairs, next, hf, hn, k, hb, .inr ⟨?_, hp⟩⟩
    rw [kindAt, hl]
    exact hk
  case entry key v _ _ _ _ ha _ ih =>
    obtain ⟨i, hi, hl⟩ := s.exists_blank pos
    rw [← hs, ← hl] at ha
    obtain ⟨j, hj, hr⟩ := exists_readAssignment ha
    obtain ⟨pairs, next, hf, hn, k, hb, hk⟩ := ih hr
    refine ⟨(key, v) :: pairs, next, hf, hn, ?_⟩
    rcases hk with ⟨hk, rfl, rfl⟩ | ⟨hk, hp⟩
    case inl => exact .last hi hj hb hk
    case inr => exact .cons hi hj hb hk hp

namespace HoldsEntries

theorem bounds (h : s.HoldsEntries depth pos pairs next) :
    pos ≤ next ∧ next ≤ s.tokens.length := by
  induction h
  case last i _ j k hi ha hj hk     =>
    have hij := (reads_of_readAssignment ha).left
    have hkl : k < s.tokens.length := lt_length_of_kindAt (by rw [hk]; decide)
    exact ⟨(hi.left.trans (hij.trans hj.left)).trans (Nat.le_succ k), hkl⟩
  case cons i _ j k _ _ hi ha hj _ _ ih =>
    have hij := (reads_of_readAssignment ha).left
    exact ⟨(hi.left.trans (hij.trans hj.left)).trans ((Nat.le_succ k).trans ih.left), ih.right⟩

theorem reads (h : s.HoldsEntries depth pos pairs next) (es : Entries Value) :
    ReadsEntries (nested depth) true es (s.lexemesFrom pos)
      (pairs.foldl (fun es (key, v) => es.insert key v) es) (s.lexemesFrom next) := by
  induction h generalizing es
  case last hi ha hj hk      =>
    obtain ⟨_, hw, ht⟩ := hj.exists_next hk (by decide)
    exact reads_entry hi ha (.close hw ht)
  case cons hi ha hj hk _ ih =>
    obtain ⟨_, hw, ht⟩ := hj.exists_next hk (by decide)
    exact reads_entry hi ha (.comma hw ht (ih _))

end HoldsEntries

-- A hash is read exactly if entries are there, with a comma between two of them and a bracket
-- behind the last one. Of the entries of one key, the first gives the place and the last the value.
theorem readHash_eq_ok_iff (s : TokenSequence) (depth pos next : Nat) (es : Entries Value) :
    (s.readHash depth pos = .ok (next, es) ↔
      ∃ pairs, s.HoldsEntries depth (pos + 1) pairs next ∧ es = .ofPairs pairs) ∧
    ∀ pairs : List (String × Value),
      Entries.keys (.ofPairs pairs) = (pairs.map (·.1)).eraseDups ∧
        ∀ key, Entries.get? (.ofPairs pairs) key =
          (pairs.reverse.find? (·.1 = key)).map (·.2) := by
  refine ⟨?_, fun pairs => ⟨Entries.keys_ofPairs pairs, Entries.get?_ofPairs pairs⟩⟩
  rw [readHash, located_eq_ok_iff]
  simp only [entries_yields_iff]
  constructor
  case mp  =>
    rintro ⟨rest, hr, rfl⟩
    obtain ⟨pairs, next, rfl, rfl, hp⟩ := holdsEntries_of_reads hr rfl
    obtain ⟨hl, hn⟩ := hp.bounds
    exact ⟨pairs, by rwa [positionOf_lexemesFrom hl hn], rfl⟩
  case mpr =>
    rintro ⟨pairs, hp, rfl⟩
    obtain ⟨hl, hn⟩ := hp.bounds
    exact ⟨_, hp.reads [], positionOf_lexemesFrom hl hn⟩

example : (ofSource "\x7ba=1, b=2 ,a = 3\x7d").bind (·.readHash 0 0) =
    .ok (17, [("a", .int 3), ("b", .int 2)]) := by cbv

end TokenSequence

end ArgTree
