namespace ArgTree.Text

-- An inclusive range of code points.
structure CodeRange where
  first : Nat
  last  : Nat
  deriving DecidableEq

def CodeRange.contains (r : CodeRange) (c : Char) : Bool :=
  r.first ≤ c.toNat && c.toNat ≤ r.last

-- Whether a character belongs to one of the ranges of a table.
def inTable (table : List CodeRange) (c : Char) : Bool :=
  table.any (·.contains c)

theorem inTable_iff {table : List CodeRange} {c : Char} :
    inTable table c ↔ ∃ r ∈ table, r.first ≤ c.toNat ∧ c.toNat ≤ r.last := by
  simp [inTable, CodeRange.contains]

end ArgTree.Text
