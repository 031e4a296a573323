namespace ArgTree

-- The kinds of tokens, in their order. Only the token that marks the end of the text has the last
-- one.
inductive Kind
  | escape
  | var
  | quote
  | lParen
  | rParen
  | lCurly
  | rCurly
  | lSquare
  | rSquare
  | comma
  | whitespace
  | number
  | equals
  | word
  | unmatchedQuote
  | endOfText
  deriving DecidableEq

namespace Kind

def all : List Kind :=
  [escape, var, quote, lParen, rParen, lCurly, rCurly, lSquare, rSquare, comma, whitespace, number,
   equals, word, unmatchedQuote, endOfText]

def name : Kind → String
  | escape         => "escape"
  | var            => "variable"
  | quote          => "quote"
  | lParen         => "l_paren"
  | rParen         => "r_paren"
  | lCurly         => "l_curly"
  | rCurly         => "r_curly"
  | lSquare        => "l_square"
  | rSquare        => "r_square"
  | comma          => "comma"
  | whitespace     => "whitespace"
  | number         => "number"
  | equals         => "equals"
  | word           => "word"
  | unmatchedQuote => "unmatched_quote"
  | endOfText      => "end"

def ofName? (name : String) : Option Kind :=
  all.find? (·.name = name)

-- The place of a kind in the order of kinds.
def index (k : Kind) : Nat :=
  all.idxOf k

-- Elements can stand alone as values.
def isElement : Kind → Bool
  | word | number | quote | var => true
  | _                           => false

-- The closing partner of an opening bracket.
def closing? : Kind → Option Kind
  | lParen  => some rParen
  | lCurly  => some rCurly
  | lSquare => some rSquare
  | _       => none

-- The opening partner of a closing bracket.
def opening? : Kind → Option Kind
  | rParen  => some lParen
  | rCurly  => some lCurly
  | rSquare => some lSquare
  | _       => none

def isOpening (k : Kind) : Bool := k.closing?.isSome

def isClosing (k : Kind) : Bool := k.opening?.isSome

theorem mem_all (k : Kind) : k ∈ all := by
  cases k <;> decide

theorem closing?_eq_some_iff {k l : Kind} : k.closing? = some l ↔ l.opening? = some k := by
  cases k <;> cases l <;> decide

theorem ofName?_name (k : Kind) : ofName? k.name = some k := by
  cases k <;> decide

end Kind

end ArgTree
