import ArgTree.Number.Numeral
import ArgTree.Value.Basic

namespace ArgTree

-- One step of the way to a value inside a tree.
inductive Step
  | key (name : String)
  | index (place : Nat)
  deriving DecidableEq

namespace Step

-- Reads a step off the front of a path. A key runs up to the next `.` or `[` and holds no `]`, and
-- an index is written in brackets.
def read? : List Char → Option (Step × List Char)
  | '[' :: path =>
    match path.dropWhile (· ≠ ']') with
    | [] => none
    | _ :: rest => (Numeral.index? (path.takeWhile (· ≠ ']'))).map (index ·, rest)
  | path =>
    let name := path.takeWhile inKey
    if name = [] ∨ ']' ∈ name then none else some (key (String.ofList name), path.dropWhile inKey)
where
  inKey (c : Char) : Bool := c ≠ '.' && c ≠ '['

-- What follows a step: nothing, an index, or a `.` and more path, which is returned without its
-- `.`.
def continuation? : List Char → Option (List Char)
  | []          => some []
  | ['.']       => none
  | '.' :: path => some path
  | '[' :: path => some ('[' :: path)
  | _           => none

theorem length_lt_of_read? (h : read? path = some (s, rest)) : rest.length < path.length := by
  unfold read? at h
  split at h
  case h_1 path =>
    split at h <;> try contradiction
    case h_2 hd =>
      obtain ⟨_, _, h⟩ := Option.map_eq_some_iff.mp h
      have := (List.dropWhile_suffix (l := path) (· ≠ ']')).length_le
      simp_all
      omega
  case h_2 =>
    dsimp only at h
    split at h <;> simp at h
    case isFalse hn =>
      have hl := congrArg List.length (path.takeWhile_append_dropWhile (p := read?.inKey))
      have hp := List.length_pos_iff.mpr (not_or.mp hn).left
      rw [List.length_append] at hl
      rw [← h.right]
      omega

theorem length_le_of_continuation? (h : continuation? path = some rest) :
    rest.length ≤ path.length := by
  unfold continuation? at h
  split at h <;> simp at h <;> simp [← h]

end Step

-- The steps of a path such as `key[1].nested`. The empty path has none.
def Path.steps? (path : List Char) : Option (List Step) :=
  if path = [] then some []
  else
    match _ : Step.read? path with
    | none           => none
    | some (s, rest) =>
      match _ : Step.continuation? rest with
      | none      => none
      | some path => (Path.steps? path).map (s :: ·)
termination_by path.length
decreasing_by
  exact Nat.lt_of_le_of_lt (Step.length_le_of_continuation? ‹_›) (Step.length_lt_of_read? ‹_›)

namespace Value

-- The value that one step leads to.
def child? : Value → Step → Option Value
  | map entries, .key name    => Entries.get? entries name
  | list items,  .index place => items[place]?
  | _,           _            => none

def descend? (v : Value) (steps : List Step) : Option Value :=
  steps.foldlM child? v

-- The value at a path.
def get? (v : Value) (path : String) : Option Value :=
  (Path.steps? path.toList).bind v.descend?

end Value

end ArgTree
