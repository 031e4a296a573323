import Mathlib
import ArgTree.Expression

namespace ArgTree.Expression

-- The characters that end every word, apart from white space.
def special : List Char :=
  ['\\', '"', '(', ')', '{', '}', '[', ']', ',', '=']

def isPlain (c : Char) : Bool :=
  !Text.isWhiteSpace c && !special.contains c

def IsWord (t : List Char) : Prop :=
  t ≠ [] ∧ ∀ c ∈ t, isPlain c

def IsWhiteSpace (t : List Char) : Prop :=
  t ≠ [] ∧ ∀ c ∈ t, Text.isWhiteSpace c

theorem isWhiteSpace_blank : IsWhiteSpace " ".toList :=
  ⟨nofun, List.forall_mem_singleton.mpr (by decide +kernel)⟩

def IsVariable (t : List Char) : Prop :=
  ∃ w, t = '$' :: w ∧ w ≠ [] ∧ ∀ c ∈ w, Text.isWordCharacter c

def IsSign (t : List Char) : Prop :=
  t = [] ∨ t = ['-'] ∨ t = ['+']

def IsInteger (t : List Char) : Prop :=
  ∃ sign digits, t = sign ++ digits ∧ IsSign sign ∧ digits ≠ [] ∧ ∀ c ∈ digits, c.isDigit

def IsFloat (t : List Char) : Prop :=
  ∃ sign whole fraction, t = sign ++ (whole ++ '.' :: fraction) ∧ IsSign sign ∧
    (∀ c ∈ whole, c.isDigit) ∧ fraction ≠ [] ∧ ∀ c ∈ fraction, c.isDigit

-- What may stand between quotes: a `\` protects the next character, which is not a line break.
inductive QuoteBody : List Char → Prop
  | nil     : QuoteBody []
  | plain   : c ≠ '"' → c ≠ '\\' → QuoteBody t → QuoteBody (c :: t)
  | escaped : c ≠ '\n' → QuoteBody t → QuoteBody ('\\' :: c :: t)

def IsQuote (t : List Char) : Prop :=
  ∃ body, t = '"' :: (body ++ ['"']) ∧ QuoteBody body

-- The texts that a rule of the expression language matches as a whole.
def language (r : Rule) : List Char → Prop :=
  match r.kind with
  | .escape         => (· = ['\\'])
  | .var            => IsVariable
  | .quote          => IsQuote
  | .lParen         => (· = ['('])
  | .rParen         => (· = [')'])
  | .lCurly         => (· = ['{'])
  | .rCurly         => (· = ['}'])
  | .lSquare        => (· = ['['])
  | .rSquare        => (· = [']'])
  | .comma          => (· = [','])
  | .whitespace     => IsWhiteSpace
  | .number         => if r.conversion = some .float then IsFloat else IsInteger
  | .equals         => (· = ['='])
  | .word           => IsWord
  | .unmatchedQuote => (· = ['"'])
  | .endOfText      => fun _ => False

theorem not_language_nil : ¬language r [] := by
  cases hk : r.kind
  case number =>
    by_cases hc : r.conversion = some .float <;>
      simp +contextual [language, hk, hc, IsFloat, IsInteger]
  all_goals simp [language, hk, IsVariable, IsQuote, IsWhiteSpace, IsWord]

end ArgTree.Expression
