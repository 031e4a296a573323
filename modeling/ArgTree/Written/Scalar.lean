import ArgTree.TokenSequence

namespace ArgTree

-- How scalars are written. A string is written in the first way of these that is read as the same
-- string: bare, if it is a single word, variable or quoted string; as it is, if it is a whole
-- verbatim region; and behind a `\`, if it is a row of escapes and one other token. Other strings
-- are quoted, and are then read with their quotes.
namespace Written

-- The kinds of the tokens that a text consists of, unless it cannot be cut into tokens.
def kinds? (s : String) : Option (List Kind) :=
  (Expression.grammar.lex s).toOption.map fun lexed => lexed.tokens.map (·.kind)

def isBare (s : String) : Bool :=
  match kinds? s with
  | some [k] => k = .word || k = .var || k = .quote
  | _        => false

def isVerbatim (s : String) : Bool :=
  s.toList.head? = some '(' &&
    match parse s with
    | .ok (.list [.str t]) => t = s
    | _                    => false

-- A single `\` in front of the text makes the last token text as well.
def isEscapable (s : String) : Bool :=
  match kinds? s with
  | some ks =>
    match ks.getLast? with
    | some k => k ≠ .escape && ks.dropLast.all (· = .escape)
    | none   => false
  | none    => false

-- A `\` in front of every quote and every `\`.
def escapeQuotes (s : String) : String :=
  String.ofList <| s.toList.flatMap fun c => if c = '"' ∨ c = '\\' then ['\\', c] else [c]

def quoted (s : String) : String :=
  "\"" ++ escapeQuotes s ++ "\""

def string (s : String) : String :=
  if isBare s || isVerbatim s then s
  else if isEscapable s then "\\" ++ s
  else quoted s

-- A key is read as the text of a single element, which may be a number.
def key (k : String) : String :=
  match kinds? k with
  | some [kind] => if kind.isElement then k else quoted k
  | _           => quoted k

def int (n : Int64) : String :=
  String.ofList (Digits.ofInt n.toInt)

def float (f : Binary64) : String :=
  String.ofList (FloatText.expression.write f)

end Written

end ArgTree
