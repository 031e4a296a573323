import ArgTree.Lexer

namespace ArgTree

-- The kinds of failures to read an expression.
inductive ErrorKind
  | unmatchableText
  | invalidCharacter
  | unexpectedClose
  | delimiterExpected
  | itemExpected
  | whitespaceExpected
  | unexpectedEnd
  | nestingTooDeep
  deriving DecidableEq

namespace ErrorKind

def all : List ErrorKind :=
  [unmatchableText, invalidCharacter, unexpectedClose, delimiterExpected, itemExpected,
   whitespaceExpected, unexpectedEnd, nestingTooDeep]

def name : ErrorKind → String
  | unmatchableText    => "UnmatchableText"
  | invalidCharacter   => "InvalidCharacter"
  | unexpectedClose    => "UnexpectedClose"
  | delimiterExpected  => "DelimiterExpected"
  | itemExpected       => "ItemExpected"
  | whitespaceExpected => "WhitespaceExpected"
  | unexpectedEnd      => "UnexpectedEnd"
  | nestingTooDeep     => "NestingTooDeep"

def ofName? (name : String) : Option ErrorKind :=
  all.find? (·.name = name)

-- What an error of a kind says if there is nothing more precise to say.
def defaultMessage : ErrorKind → String
  | unmatchableText    => "Unexpected character"
  | invalidCharacter   => "Invalid character"
  | unexpectedClose    => "Unexpected close"
  | delimiterExpected  => "Delimiter expected"
  | itemExpected       => "Item expected"
  | whitespaceExpected => "Whitespace expected"
  | unexpectedEnd      => "Unexpected end of input"
  | nestingTooDeep     => "Maximum nesting depth exceeded"

end ErrorKind

-- A failure to read an expression, with the whole source and the offset of the offending text in
-- it, in characters. There is no offending text at the end of the source.
structure ParseError where
  kind      : ErrorKind
  message   : String := kind.defaultMessage
  character : Option String := none
  source    : String
  offset    : Nat
  -- Whether corrected input may be tried, if that is known.
  retry     : Option Bool := none
  deriving DecidableEq

namespace ParseError

def withCharacter (e : ParseError) (text : String) : ParseError :=
  { e with character := if text = "" then none else some text }

def ofLexError (e : LexError) (source : String) : ParseError :=
  let error : ParseError := {
    kind    := .unmatchableText
    message := e.message
    source
    offset  := e.offset
    retry   := some true
  }
  error.withCharacter e.text

-- The place of the offending text.
def span (e : ParseError) : Span :=
  ⟨e.offset, e.offset + (e.character.getD "").length⟩

def display (e : ParseError) : String :=
  let place := " at offset " ++ String.ofList (Digits.ofNat e.offset)
  match e.character with
  | some c => e.message ++ " '" ++ c ++ "'" ++ place
  | none   => e.message ++ place

-- What stands before the source in the first line of the caret rendering.
def preamble (e : ParseError) : String :=
  e.message ++ " \"" ++ e.character.getD "" ++ "\" : "

-- The message and the source in one line, and a caret under the offending text in the next.
def caret (e : ParseError) : String :=
  let indent := List.replicate (e.preamble.length + e.offset) ' '
  e.preamble ++ e.source ++ "\n" ++ String.ofList indent ++ "^"

-- How far the caret stands from the start of its line.
def indent (e : ParseError) : Nat :=
  e.preamble.length + e.offset

-- No text is indented by more characters than this.
def widestIndent : Nat := 65535

-- The caret rendering, if the caret can stand as far from the start of its line as it has to.
def caret? (e : ParseError) : Option String :=
  if e.indent ≤ widestIndent then some e.caret else none

end ParseError

end ArgTree
