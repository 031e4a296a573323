import ArgTree.Expression
import ArgTree.Parser.Basic

namespace ArgTree

-- What the items of a top level stand for.
def Value.ofTopLevel : (unwrapSingleton : Bool) → List Value → Value
  | true, [.list items]  => .list items
  | true, [.map entries] => .map entries
  | _,    items          => .list items

-- A source and its tokens.
structure TokenSequence where
  source   : String
  tokens   : List Token
  counters : Counters
  deriving DecidableEq

structure ParseOptions where
  -- The number of tokens that are passed over.
  start           : Nat := 0
  -- Whether a top level that holds exactly one list or map stands for that item.
  unwrapSingleton : Bool := true
  -- How many levels may be open at once inside the top level.
  maxDepth        : Nat := 100

namespace TokenSequence

def ofGrammar (g : Grammar) (source : String) : Except ParseError TokenSequence :=
  match g.lex source with
  | .ok lexed => .ok { source, tokens := lexed.tokens, counters := lexed.counters }
  | .error e  => .error (.ofLexError e source)

def ofSource (source : String) : Except ParseError TokenSequence :=
  ofGrammar Expression.grammar source

variable (s : TokenSequence)

def lexemes : List Lexeme :=
  s.tokens.map (·.toLexeme)

-- The lexemes from a position on. There are none from a position past the end.
def lexemesFrom (pos : Nat) : List Lexeme :=
  s.lexemes.drop pos

def kindAt (pos : Nat) : Kind :=
  Lookahead.kind (s.lexemesFrom pos)

-- The text of the token at a position, which is empty past the end.
def textAt (pos : Nat) : String :=
  match s.lexemesFrom pos with
  | []     => ""
  | t :: _ => t.text

-- Whether the token at a position is in a class. Nothing is past the end.
def isIn (pos : Nat) (c : TokenClass) : Bool :=
  Lookahead.isIn c (s.lexemesFrom pos)

-- Whether a position is past the last token, or at a token of kind `close`.
def isEnd (pos : Nat) (close : Option Kind) : Bool :=
  s.kindAt pos = .endOfText || close = some (s.kindAt pos)

-- Walks from `pos` over tokens of the given kinds. With `lookFor`, the walk only counts if it ends
-- at a token of one of these kinds.
def walk (pos : Nat) (kinds : List Kind) (lookFor : Option (List Kind)) : Nat :=
  let stop := pos + ((s.lexemesFrom pos).takeWhile (·.kind ∈ kinds)).length
  match lookFor with
  | some wanted => if s.kindAt stop ∈ wanted then stop else pos
  | none        => stop

def skipWhitespace (pos : Nat) : Nat :=
  s.walk pos [.whitespace] none

def roleAt (pos : Nat) : Role :=
  Lookahead.role (s.lexemesFrom pos)

-- The position of a rest of the lexemes from `pos` on.
def positionOf (pos : Nat) (rest : List Lexeme) : Nat :=
  pos + ((s.lexemesFrom pos).length - rest.length)

-- The positions of key, `=` and value if an assignment starts at a position.
def assignmentAt? (pos : Nat) : Option (Nat × Nat × Nat) :=
  (Lookahead.assignment? (s.lexemesFrom pos)).map fun a =>
    (pos, s.positionOf pos a.equals, s.positionOf pos a.value)

-- The texts of the tokens with `separator` between them.
def join (separator : String) : String :=
  separator.intercalate (s.lexemes.map (·.text))

-- The source as far as the tokens cover it.
def text : String :=
  Lexeme.textOf s.lexemes

-- The number of characters in front of a position.
def offset (pos : Nat) : Nat :=
  (Lexeme.textOf (s.lexemes.take pos)).length

-- An error in front of `rest`, a rest of the lexemes.
def errorBefore (rest : List Lexeme) (kind : ErrorKind) (message : String) : ParseError :=
  let offset := s.text.length - (Lexeme.textOf rest).length
  let error : ParseError := { kind, message, source := s.text, offset, retry := some true }
  error.withCharacter ((rest.head?.map (·.text)).getD "")

def errorAt (pos : Nat) (kind : ErrorKind) (message : String := kind.defaultMessage) : ParseError :=
  s.errorBefore (s.lexemesFrom pos) kind message

def errorOf (f : Fault) : ParseError :=
  s.errorBefore f.rest f.cause.kind f.cause.message

-- Reads the whole sequence as a value. What is left behind the top level lacks a delimiter.
def parseOutcome (o : ParseOptions) : Except Fault Value := do
  let top ← Parser.level (Parser.nested o.maxDepth) .endOfText none (s.lexemesFrom o.start)
  if top.rest ≠ [] then
    throw ⟨.delimiterExpected, top.rest⟩
  return .ofTopLevel o.unwrapSingleton top.value

def parse (o : ParseOptions := {}) : Except ParseError Value :=
  (s.parseOutcome o).mapError s.errorOf

-- Reads one level from a position on. A verbatim one is read as text up to its closing bracket,
-- with the text of the token in front of it.
def levelOutcome (pos : Nat) (close : Close) (first : Option Value) (verbatim : Bool) :
    Except Fault (List Value × List Lexeme) :=
  let ts := s.lexemesFrom pos
  if verbatim then
    match close with
    | .bracket k => do
      let region ← Parser.verbatim k 0 ts
      let opener := if pos = 0 then "" else s.textAt (pos - 1)
      return ([.str (opener ++ region.value)], region.rest)
    | _ => .error ⟨.boundlessVerbatim, ts⟩
  else do
    let level ← Parser.level (Parser.nested 100) close first ts
    return (level.value, level.rest)

-- Reads one level, and returns the position behind it and its items.
def readLevel (pos : Nat) (close : Close) (first : Option Value := none)
    (verbatim : Bool := false) : Except ParseError (Nat × List Value) :=
  match s.levelOutcome pos close first verbatim with
  | .ok (items, rest) => .ok (s.positionOf pos rest, items)
  | .error f          => .error (s.errorOf f)

end TokenSequence

-- Reads an expression as a value.
def parse (source : String) (o : ParseOptions := {}) : Except ParseError Value := do
  (← TokenSequence.ofSource source).parse o

end ArgTree
