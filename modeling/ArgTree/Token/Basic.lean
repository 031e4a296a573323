import ArgTree.Token.Kind
import ArgTree.Token.Span
import ArgTree.Number.FloatText

namespace ArgTree

-- The value of a token: its text, or the number that it stands for.
inductive Scalar
  | str (s : String)
  | int (n : Int64)
  | float (f : Binary64)
  deriving DecidableEq

def Scalar.display : Scalar → String
  | str s   => s
  | int n   => String.ofList (Digits.ofInt n.toInt)
  | float f => String.ofList (FloatText.display.write f)

-- A stretch of text with the kind and the value that a rule gave it. Where it stands does not
-- matter.
structure Lexeme where
  kind  : Kind
  value : Scalar
  text  : String
  deriving DecidableEq

-- The text that some lexemes were cut from.
def Lexeme.textOf (ts : List Lexeme) : String :=
  String.join (ts.map (·.text))

-- A lexeme at its place in a text.
structure Token extends Lexeme where
  span : Span
  deriving DecidableEq

namespace Token

-- The token that marks the end of a text of `length` characters.
def endOfText (length : Nat) : Token where
  kind  := .endOfText
  value := .str ""
  text  := ""
  span  := .empty length

def display (t : Token) : String :=
  t.kind.name ++ "(" ++ t.value.display ++ ")"

end Token

end ArgTree
