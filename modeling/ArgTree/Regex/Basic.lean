import ArgTree.Regex.CharSet

namespace ArgTree

inductive Regex
  | empty
  | set (s : CharSet)
  | textStart
  | textEnd
  | wordBoundary
  | seq (r s : Regex)
  | alt (r s : Regex)
  | star (greedy : Bool) (r : Regex)
  deriving DecidableEq

namespace Regex

-- A place in a text: the character before it, the number of characters before it and the text after
-- it. The text before the place where a match is attempted does not count, so that a match always
-- starts at the start of the text.
structure Cursor where
  before : Option Char
  taken  : Nat
  rest   : List Char

namespace Cursor

def start (cs : List Char) : Cursor := ⟨none, 0, cs⟩

-- Whether exactly one of the characters around a place is a word character.
def atWordBoundary (c : Cursor) : Bool :=
  c.before.any Text.isWordCharacter != c.rest.head?.any Text.isWordCharacter

end Cursor

-- The first success of two attempts.
def firstOf (a : Option α) (b : Unit → Option α) : Option α :=
  match a with
  | some x => some x
  | none   => b ()

-- Repeats `step` as long as it makes progress, at most once for each character of `ahead`, and then
-- goes on with `k`. A greedy repetition prefers to go round once more, any other one prefers to go
-- on.
def iterate (greedy : Bool) (step : Cursor → (Cursor → Option α) → Option α)
    (k : Cursor → Option α) : (ahead : List Char) → Cursor → Option α
  | [],         c => k c
  | _ :: ahead, c =>
    let again := fun _ => step c fun d =>
      if c.taken < d.taken then iterate greedy step k ahead d else none
    if greedy then firstOf (again ()) (fun _ => k c) else firstOf (k c) again

-- Matches a regular expression at a place and goes on with `k`. The ways to match are tried in
-- order of preference, left alternatives first, until one lets `k` succeed.
def run : Regex → Cursor → (Cursor → Option α) → Option α
  | empty,         c, k => k c
  | set s,         c, k =>
    match c.rest with
    | x :: xs => if s.contains x then k ⟨some x, c.taken + 1, xs⟩ else none
    | []      => none
  | textStart,     c, k => if c.before.isNone then k c else none
  | textEnd,       c, k => if c.rest.isEmpty then k c else none
  | wordBoundary,  c, k => if c.atWordBoundary then k c else none
  | seq r s,       c, k => r.run c fun d => s.run d k
  | alt r s,       c, k => firstOf (r.run c k) (fun _ => s.run c k)
  | star greedy r, c, k => iterate greedy (r.run · ·) k c.rest c

-- The number of characters that the preferred match at the start of a text takes up.
def matchLength? (r : Regex) (cs : List Char) : Option Nat :=
  r.run (.start cs) fun c => some c.taken

-- The number of characters of the text around a place.
def Cursor.total (c : Cursor) : Nat :=
  c.taken + c.rest.length

theorem iterate_eq_some {step : Cursor → (Cursor → Option α) → Option α}
    (hs : ∀ c k, step c k = some x → ∃ d : Cursor, d.total = c.total ∧ k d = some x)
    (h : iterate greedy step k ahead c = some x) :
    ∃ d : Cursor, d.total = c.total ∧ k d = some x := by
  induction ahead generalizing c
  case nil => exact ⟨c, rfl, h⟩
  case cons y ahead hi =>
    have again (h : step c (fun d =>
        if c.taken < d.taken then iterate greedy step k ahead d else none) = some x) :
        ∃ d : Cursor, d.total = c.total ∧ k d = some x := by
      have ⟨d, hd, h⟩ := hs _ _ h
      split at h <;> try contradiction
      have ⟨e, he, h⟩ := hi h
      exact ⟨e, he.trans hd, h⟩
    simp only [iterate, firstOf] at h
    cases greedy
    case true =>
      simp only [↓reduceIte] at h
      split at h
      case h_1 hg => exact again (h ▸ hg)
      case h_2    => exact ⟨c, rfl, h⟩
    case false =>
      simp only [Bool.false_eq_true, ↓reduceIte] at h
      split at h
      case h_1 hk => exact ⟨c, rfl, h ▸ hk⟩
      case h_2    => exact again h

-- A match goes on at a place in the same text.
theorem run_eq_some {r : Regex} {k : Cursor → Option α} (h : r.run c k = some x) :
    ∃ d : Cursor, d.total = c.total ∧ k d = some x := by
  induction r generalizing c k
  case empty => exact ⟨c, rfl, h⟩
  case set =>
    simp only [run] at h
    split at h <;> try contradiction
    split at h <;> try contradiction
    case h_1 hc _ => exact ⟨_, by simp only [Cursor.total, hc, List.length_cons]; omega, h⟩
  case textStart | textEnd | wordBoundary =>
    simp only [run] at h
    split at h <;> try contradiction
    exact ⟨c, rfl, h⟩
  case seq hr hs =>
    have ⟨d, hd, h⟩ := hr h
    have ⟨e, he, h⟩ := hs h
    exact ⟨e, he.trans hd, h⟩
  case alt hr hs =>
    simp only [run, firstOf] at h
    split at h
    case h_1 ha => exact hr (h ▸ ha)
    case h_2    => exact hs h
  case star hr => exact iterate_eq_some (fun _ _ => hr) h

theorem length_le_of_matchLength? {r : Regex} (h : r.matchLength? cs = some n) : n ≤ cs.length := by
  have ⟨d, hd, h⟩ := run_eq_some h
  cases h
  simp only [Cursor.total, Cursor.start, Nat.zero_add] at hd
  omega

end Regex

end ArgTree
