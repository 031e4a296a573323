import ArgTree.Text.WhiteSpace
import ArgTree.Text.DecimalDigit
import ArgTree.Text.WordCharacter

namespace ArgTree

-- The sets of characters that a regular expression can name.
inductive CharSet
  | range (first last : Char)
  | whiteSpace
  | decimalDigit
  | wordCharacter
  | union (s t : CharSet)
  | complement (s : CharSet)
  deriving DecidableEq

namespace CharSet

def contains : CharSet → Char → Bool
  | range first last, c => first ≤ c && c ≤ last
  | whiteSpace,       c => Text.isWhiteSpace c
  | decimalDigit,     c => Text.isDecimalDigit c
  | wordCharacter,    c => Text.isWordCharacter c
  | union s t,        c => s.contains c || t.contains c
  | complement s,     c => !s.contains c

def single (c : Char) : CharSet := range c c

def anyButNewline : CharSet := complement (single '\n')

@[simp]
theorem contains_single : (single a).contains c ↔ c = a := by
  simp only [single, contains, Bool.and_eq_true, decide_eq_true_eq]
  exact ⟨fun h => Char.le_antisymm h.2 h.1, fun h => h ▸ ⟨Char.le_refl _, Char.le_refl _⟩⟩

@[simp]
theorem contains_union : (union s t).contains c ↔ s.contains c ∨ t.contains c := by
  simp [contains]

@[simp]
theorem contains_complement : (complement s).contains c ↔ ¬s.contains c := by
  simp [contains]

end CharSet

end ArgTree
