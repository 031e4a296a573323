import ArgTree.ParseError

namespace ArgTree

-- What a report says about an error: a title, a label under the offending text, and advice.
structure Advice where
  title : String
  label : String
  help  : Option String

def ParseError.advice (e : ParseError) : Advice :=
  match e.kind with
  | .unmatchableText =>
    { title := "unmatchable text"
      label := e.message
      help  := if e.character = some "\"" then some "quotes must come in pairs" else none }
  | .invalidCharacter =>
    { title := "invalid character"
      label := e.message
      help  := some "write `\\` in front of it to use it as text" }
  | .unexpectedClose =>
    { title := "unexpected closing bracket"
      label := "nothing to close here"
      help  := some "remove it, or add the matching opening bracket" }
  | .delimiterExpected =>
    { title := "delimiter expected"
      label := "expected `,` or whitespace before this"
      help  := some "separate items with commas or with whitespace" }
  | .itemExpected =>
    { title := "item expected"
      label := "expected an item here"
      help  := some "remove the extra comma" }
  | .whitespaceExpected =>
    { title := "whitespace expected"
      label := "this level is separated by whitespace"
      help  := some "use one kind of delimiter per level, or bracket the comma-separated items" }
  | .unexpectedEnd =>
    { title := "unexpected end of input"
      label := e.message
      help  := some "close every open bracket, brace and parenthesis" }
  | .nestingTooDeep =>
    { title := "nesting too deep"
      label := "one level too many opens here"
      help  := some "flatten the expression, or raise `ParseOptions::max_depth`" }

-- The characters that a report marks. An error without offending text is marked at its place, or at
-- the last character if that is the end of the source.
def ParseError.markedSpan (e : ParseError) : Span :=
  let length := e.source.length
  if !e.span.isEmpty then e.span
  else if e.offset < length then ⟨e.offset, e.offset + 1⟩
  else ⟨length - 1, length⟩

namespace Report

-- The line of a text that holds a character, the number of lines above it, and the place of the
-- character in it.
def locate (cs : List Char) (place : Nat) : List Char × Nat × Nat :=
  let above := cs.take place
  let column := (above.reverse.takeWhile (· ≠ '\n')).length
  ((cs.drop (place - column)).takeWhile (· ≠ '\n'), above.count '\n', column)

def trimRight (cs : List Char) : List Char :=
  (cs.reverse.dropWhile Text.isWhiteSpace).reverse

def margin : List Char := "   │".toList

def spaces (n : Nat) : List Char := List.replicate n ' '

def rule (n : Nat) : List Char := List.replicate n '─'

-- A rule of `length` dashes under the marked text, with a branch in its middle.
def underline (column length : Nat) : List Char :=
  margin ++ spaces (column + 1) ++ rule (length / 2) ++ ['┬'] ++ rule (length - length / 2 - 1)

-- The branch of the underline, with the label at its end.
def labelled (column length : Nat) (label : String) : List Char :=
  margin ++ spaces (column + length / 2 + 1) ++ ['╰'] ++ rule (length - length / 2 + 1) ++ [' '] ++
    label.toList

-- The lines of the report on an error: its title, the line of the source that holds it with a mark
-- under the offending text, and the advice.
def lines (e : ParseError) (filename : String) : List String :=
  let span := e.markedSpan
  let (line, above, column) := locate e.source.toList span.start
  let number := Digits.ofNat (above + 1)
  let place := filename.toList ++ [':'] ++ number ++ [':'] ++ Digits.ofNat (column + 1)
  let body :=
    [ "Error: ".toList ++ e.advice.title.toList,
      "   ╭─[ ".toList ++ place ++ " ]".toList,
      margin,
      [' '] ++ number ++ " │ ".toList ++ line,
      underline column span.length,
      labelled column span.length e.advice.label ]
  let help :=
    match e.advice.help with
    | some text => [margin, "   │ Help: ".toList ++ text.toList]
    | none      => []
  (body ++ help ++ ["───╯".toList]).map (String.ofList ∘ trimRight)

end Report

end ArgTree
