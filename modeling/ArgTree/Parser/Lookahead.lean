import ArgTree.Token.Basic

namespace ArgTree

-- A group of kinds of tokens.
inductive TokenClass
  | element
  | opening
  | closing
  | paren
  | hash
  | array
  | exactly (kind : Kind)
  deriving DecidableEq

def TokenClass.contains : TokenClass → Kind → Bool
  | element,   k => k.isElement
  | opening,   k => k.isOpening
  | closing,   k => k.isClosing
  | paren,     k => k = .lParen
  | hash,      k => k = .lCurly
  | array,     k => k = .lSquare
  | exactly l, k => k = l

-- What a row of lexemes begins with.
inductive Role
  | endOfText
  | whitespace
  | comma
  | escape
  | paren
  | close
  | hash
  | array
  | assignment
  | other
  deriving DecidableEq

-- An assignment at the front of a row of lexemes: its key, and what is left of the row from the `=`
-- and from the value on.
structure Assignment where
  key    : Lexeme
  equals : List Lexeme
  value  : List Lexeme

-- Questions about the lexemes that are still to be read.
namespace Lookahead

-- The kind of the next lexeme.
def kind : List Lexeme → Kind
  | []     => .endOfText
  | t :: _ => t.kind

-- Whether the next lexeme is in a class. Nothing is at the end.
def isIn (c : TokenClass) : List Lexeme → Bool
  | []     => false
  | t :: _ => c.contains t.kind

def skipWhitespace (ts : List Lexeme) : List Lexeme :=
  ts.dropWhile (·.kind = .whitespace)

-- Skips whitespace in front of a comma, a closing bracket or the end. Whitespace in front of
-- anything else separates items, and stays.
def skipPadding (ts : List Lexeme) : List Lexeme :=
  let next := kind (skipWhitespace ts)
  if next = .comma ∨ next = .endOfText ∨ next.isClosing then skipWhitespace ts else ts

-- An assignment is an element, an `=` and an element or an opening bracket, with whitespace around
-- the `=`.
def assignment? : List Lexeme → Option Assignment
  | []      => none
  | t :: ts =>
    let equals := skipWhitespace ts
    let value := skipWhitespace (equals.drop 1)
    if t.kind.isElement ∧ kind equals = .equals
        ∧ ((kind value).isElement ∨ (kind value).isOpening) then
      some { key := t, equals, value }
    else
      none

def role (ts : List Lexeme) : Role :=
  match kind ts with
  | .endOfText                   => .endOfText
  | .whitespace                  => .whitespace
  | .comma                       => .comma
  | .escape                      => .escape
  | .lParen                      => .paren
  | .rParen | .rCurly | .rSquare => .close
  | .lCurly                      => .hash
  | .lSquare                     => .array
  | _                            => if (assignment? ts).isSome then .assignment else .other

theorem skipWhitespace_suffix (ts : List Lexeme) : skipWhitespace ts <:+ ts :=
  List.dropWhile_suffix _

theorem skipPadding_suffix (ts : List Lexeme) : skipPadding ts <:+ ts := by
  unfold skipPadding
  dsimp only
  split
  · exact skipWhitespace_suffix ts
  · exact List.suffix_rfl

theorem length_skipWhitespace_le (ts : List Lexeme) : (skipWhitespace ts).length ≤ ts.length :=
  (skipWhitespace_suffix ts).length_le

theorem length_skipPadding_le (ts : List Lexeme) : (skipPadding ts).length ≤ ts.length :=
  (skipPadding_suffix ts).length_le

theorem length_lt_of_skipWhitespace (h : skipWhitespace ts = t :: us) : us.length < ts.length :=
  Nat.lt_of_lt_of_le (h ▸ Nat.lt_succ_self us.length) (length_skipWhitespace_le ts)

theorem skipWhitespace_cons (h : t.kind = .whitespace) (ts : List Lexeme) :
    skipWhitespace (t :: ts) = skipWhitespace ts :=
  List.dropWhile_cons_of_pos (decide_eq_true h)

theorem skipWhitespace_of_kind (h : kind ts ≠ .whitespace) : skipWhitespace ts = ts := by
  cases ts
  case nil  => rfl
  case cons => exact List.dropWhile_cons_of_neg (by simpa [kind] using h)

theorem skipWhitespace_cons_of_ne (h : t.kind ≠ .whitespace) (ts : List Lexeme) :
    skipWhitespace (t :: ts) = t :: ts :=
  skipWhitespace_of_kind h

-- What holds behind whitespace holds in front of it, if it holds in front of each lexeme of it.
theorem skipWhitespace_induction {P : List Lexeme → Prop} (h : P (skipWhitespace ts))
    (space : ∀ t ts, t.kind = .whitespace → P ts → P (t :: ts)) : P ts := by
  induction ts
  case nil => exact h
  case cons t ts hi =>
    by_cases ht : t.kind = .whitespace
    case pos => exact space t ts ht (hi (skipWhitespace_cons ht ts ▸ h))
    case neg => exact skipWhitespace_cons_of_ne ht ts ▸ h

theorem kind_skipWhitespace (ts : List Lexeme) : kind (skipWhitespace ts) ≠ .whitespace := by
  induction ts
  case nil => exact nofun
  case cons t ts hi =>
    by_cases ht : t.kind = .whitespace
    case pos => rwa [skipWhitespace_cons ht]
    case neg => rwa [skipWhitespace_cons_of_ne ht]

theorem skipWhitespace_idem (ts : List Lexeme) :
    skipWhitespace (skipWhitespace ts) = skipWhitespace ts :=
  skipWhitespace_of_kind (kind_skipWhitespace ts)

theorem length_value_lt (h : assignment? (t :: ts) = some a) : a.value.length < ts.length := by
  simp only [assignment?] at h
  split at h <;> try contradiction
  case isTrue hk =>
    injection h with h
    have h₁ := length_skipWhitespace_le ts
    have h₂ := length_skipWhitespace_le ((skipWhitespace ts).drop 1)
    have h₃ : skipWhitespace ts ≠ [] := fun hn => by simp [hn, kind] at hk
    have h₄ := List.length_pos_iff.mpr h₃
    subst h
    simp only [List.length_drop] at h₂ ⊢
    omega

end Lookahead

end ArgTree
