import ArgTree.Proofs.Parser.Reads

namespace ArgTree

-- A key of a map, or a scalar.
inductive Leaf
  | key (text : String)
  | scalar (value : Scalar)
  deriving DecidableEq

namespace Value

-- The keys and scalars of a value, in order.
def leaves : Value → List Leaf
  | str s   => [.scalar (.str s)]
  | int n   => [.scalar (.int n)]
  | float f => [.scalar (.float f)]
  | list vs => items vs
  | map es  => entries es
where
  items : List Value → List Leaf
    | []      => []
    | v :: vs => v.leaves ++ items vs
  entries : List (String × Value) → List Leaf
    | []           => []
    | (k, v) :: es => .key k :: v.leaves ++ entries es

@[simp]
theorem leaves_ofScalar (s : Scalar) : (ofScalar s).leaves = [.scalar s] := by
  cases s <;> rfl

@[simp]
theorem leaves_items_nil : leaves.items [] = [] := rfl

@[simp]
theorem leaves_entries_nil : leaves.entries [] = [] := rfl

@[simp]
theorem leaves_items_append (vs ws : List Value) :
    leaves.items (vs ++ ws) = leaves.items vs ++ leaves.items ws := by
  induction vs
  case nil          => rfl
  case cons v vs hi => rw [List.cons_append, leaves.items, leaves.items, hi, List.append_assoc]

@[simp]
theorem leaves_items_singleton (v : Value) : leaves.items [v] = v.leaves :=
  List.append_nil _

@[simp]
theorem leaves_entries_singleton (k : String) (v : Value) :
    leaves.entries [(k, v)] = .key k :: v.leaves :=
  List.append_nil _

@[simp]
theorem leaves_entries_append (es fs : List (String × Value)) :
    leaves.entries (es ++ fs) = leaves.entries es ++ leaves.entries fs := by
  induction es
  case nil          => rfl
  case cons e es hi => simp [leaves.entries, hi]

end Value

-- What a scan of some lexemes finds: a leaf, or a bracket that has structure inside.
inductive Mark
  | leaf (l : Leaf)
  | opening (hash : Bool)
  | closing
  deriving DecidableEq

namespace Mark

open Lookahead ArgTree.Parser

def leaf? : Mark → Option Leaf
  | leaf l => some l
  | _      => none

-- How many lexemes the text behind an escape consists of.
def runLength (ts : List Lexeme) : Nat :=
  (ts.takeWhile (·.kind = .escape)).length + 1

-- How many lexemes there are up to the one that closes `depth` parentheses and one more. An escape
-- protects the lexeme behind it.
def regionLength (depth : Nat) : List Lexeme → Nat
  | []      => 0
  | t :: ts =>
    if t.kind = .escape then regionLength depth (ts.drop 1) + 2
    else if t.kind = .lParen then regionLength (depth + 1) ts + 1
    else if t.kind ≠ .rParen then regionLength depth ts + 1
    else if depth = 0 then 1
    else regionLength (depth - 1) ts + 1
termination_by ts => ts.length

-- Scans lexemes from left to right. `value` says that they begin with the value of an assignment,
-- which is no key itself, and in which a parenthesis has structure inside.
def scan (value : Bool) : List Lexeme → List Mark
  | []      => []
  | t :: ts =>
    if t.kind.isElement then
      if value then leaf (.scalar t.value) :: scan false ts
      else
        match _h : assignment? (t :: ts) with
        | some a => leaf (.key a.key.text) :: scan true a.value
        | none   => leaf (.scalar t.value) :: scan false ts
    else
      match t.kind with
      | .escape =>
        let n := runLength ts
        leaf (.scalar (.str (Lexeme.textOf (ts.take n)))) :: scan false (ts.drop n)
      | .lParen =>
        if value then opening false :: scan false ts
        else
          let n := regionLength 0 ts
          leaf (.scalar (.str (Lexeme.textOf (t :: ts.take n)))) :: scan false (ts.drop n)
      | .lSquare                     => opening false :: scan false ts
      | .lCurly                      => opening true :: scan false ts
      | .rParen | .rSquare | .rCurly => closing :: scan false ts
      | _                            => scan false ts
termination_by ts => ts.length
decreasing_by
  all_goals have := @length_value_lt
  all_goals grind [List.length_drop]

-- Whether no hash repeats a key. A frame is kept for every open bracket, with the keys that were
-- seen if it is that of a hash.
def Distinct : (frames : List (Option (List String))) → List Mark → Prop
  | _,                 []                    => True
  | some keys :: rest, leaf (.key key) :: ms =>
    key ∉ keys ∧ Distinct (some (key :: keys) :: rest) ms
  | frames,            leaf _ :: ms          => Distinct frames ms
  | frames,            opening hash :: ms    =>
    Distinct ((if hash then some [] else none) :: frames) ms
  | frames,            closing :: ms         => Distinct frames.tail ms

variable {value : Bool}

theorem runLength_append (h : Escaped run) : runLength (run ++ us) = run.length := by
  induction h
  case last hk        => simp [runLength, hk]
  case escape hk _ hi => simpa [runLength, hk] using hi

theorem regionLength_append (h : Balanced .rParen ts) :
    regionLength depth (ts ++ us) = ts.length + regionLength depth us := by
  induction h generalizing depth us
  case nil => simp
  case escape hk _ hi =>
    simp only [List.cons_append, regionLength, hk, ↓reduceIte, List.drop_succ_cons, List.drop_zero,
      hi, List.length_cons]
    omega
  case other t hk hc ho _ hi =>
    have hp : t.kind ≠ .lParen := fun h => ho (h ▸ rfl)
    simp only [List.cons_append, regionLength, hk, hp, hc, ne_eq, not_false_eq_true, ↓reduceIte, hi,
      List.length_cons]
    omega
  case bracket us' t u ho _ hu _ hi hi' =>
    have ht : t.kind = .lParen := by simpa [Kind.opening?] using ho.symm
    simp only [List.append_assoc, List.cons_append, regionLength, ht, hi, hu, hi', reduceCtorEq,
      ne_eq, not_true_eq_false, Nat.add_one_ne_zero, Nat.add_one_sub_one, ↓reduceIte,
      List.length_cons, List.length_append]
    omega

theorem scan_escape (ht : t.kind = .escape) (hr : Escaped run) : scan value (t :: (run ++ us)) =
    leaf (.scalar (.str (Lexeme.textOf run))) :: scan false us := by
  rw [scan]
  simp [ht, Kind.isElement, runLength_append hr]

theorem scan_region (ht : t.kind = .lParen) (hb : Balanced .rParen region) (hu : u.kind = .rParen) :
    scan false (t :: (region ++ u :: us)) =
      leaf (.scalar (.str (Lexeme.textOf (t :: region ++ [u])))) :: scan false us := by
  have hn : regionLength 0 (region ++ u :: us) = (region ++ [u]).length := by
    simp [regionLength_append hb, regionLength, hu]
  have hs : region ++ u :: us = region ++ [u] ++ us := by simp
  rw [scan]
  simp only [ht, hn, Kind.isElement, Bool.false_eq_true, ↓reduceIte]
  rw [hs, List.take_left, List.drop_left, List.cons_append]

theorem scan_closing (h : t.kind.isClosing) : scan value (t :: ts) = closing :: scan false ts := by
  rw [scan]
  cases hk : t.kind <;> simp [hk, Kind.isClosing, Kind.opening?] at h <;> simp [Kind.isElement]

theorem scan_lCurly (h : t.kind = .lCurly) :
    scan value (t :: ts) = opening true :: scan false ts := by
  rw [scan]
  simp [h, Kind.isElement]

theorem scan_lSquare (h : t.kind = .lSquare) :
    scan value (t :: ts) = opening false :: scan false ts := by
  rw [scan]
  simp [h, Kind.isElement]

theorem scan_opening (hn : t.kind ≠ .lCurly) (h : t.kind.closing? = some close) :
    scan true (t :: ts) = opening false :: scan false ts := by
  rw [scan]
  cases hk : t.kind <;> simp [hk, Kind.closing?] at h hn <;> simp [Kind.isElement]

theorem scan_of_passed (h : t.kind = .whitespace ∨ t.kind = .comma) :
    scan value (t :: ts) = scan false ts := by
  rw [scan]
  rcases h with h | h <;> simp [h, Kind.isElement]

theorem scan_skipWhitespace (ts : List Lexeme) : scan false (skipWhitespace ts) = scan false ts :=
  skipWhitespace_induction (P := fun us => scan false (skipWhitespace ts) = scan false us) rfl
    fun _ _ ht h => h.trans (scan_of_passed (.inl ht)).symm

theorem scan_skipPadding (ts : List Lexeme) : scan false (skipPadding ts) = scan false ts := by
  simp only [skipPadding]
  split
  · exact scan_skipWhitespace ts
  · rfl

theorem scan_element (h : t.kind.isElement) (ha : value = true ∨ assignment? (t :: ts) = none) :
    scan value (t :: ts) = leaf (.scalar t.value) :: scan false ts := by
  rw [scan, if_pos h]
  split
  case isTrue => rfl
  case isFalse hv =>
    have ha := ha.resolve_left hv
    split <;> simp_all

theorem scan_assignment (h : assignment? ts = some a) :
    scan false ts = leaf (.key a.key.text) :: scan true a.value := by
  cases ts
  case nil => contradiction
  case cons t ts =>
    rw [scan, if_pos (isElement_of_assignment? h), if_neg (by simp)]
    split <;> simp_all

end Mark

end ArgTree
