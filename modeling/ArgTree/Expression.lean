import ArgTree.Lexer

namespace ArgTree.Expression

-- The rules of the expression language, in order. Brackets are counted, and a quote that has no
-- partner is an error.
def rules : List Rule :=
  [{ pattern := regex "\\\\", kind := .escape },
   { pattern := regex "\\$\\w+", kind := .var },
   { pattern := regex "\"[^\"\\\\]*(?:\\\\.[^\"\\\\]*)*\"", kind := .quote },
   { pattern := .literal "(", kind := .lParen, increment := some "paren" },
   { pattern := .literal ")", kind := .rParen, decrement := some "paren" },
   { pattern := .literal "\x7b", kind := .lCurly, increment := some "curly" },
   { pattern := .literal "\x7d", kind := .rCurly, decrement := some "curly" },
   { pattern := .literal "[", kind := .lSquare, increment := some "square" },
   { pattern := .literal "]", kind := .rSquare, decrement := some "square" },
   { pattern := .literal ",", kind := .comma },
   { pattern := regex "\\s+", kind := .whitespace },
   { pattern := regex "[-+]?[0-9]*\\.[0-9]+", kind := .number, conversion := some .float },
   { pattern := regex "[-+]?[0-9]+", kind := .number, conversion := some .integer },
   { pattern := .literal "=", kind := .equals },
   { pattern := .literal "\"", kind := .unmatchedQuote, refusal := some "Unmatched quote" }]
where
  regex (source : String) (h : (Regex.ofSource? source).isSome := by decide +kernel) : Pattern :=
    .regex source ((Regex.ofSource? source).get h).matcher

-- A word is a run of characters that mean nothing by themselves.
def word : Rule where
  pattern := rules.regex "[^\\s\\\\\"()\x7b\x7d\\[\\],=]+"
  kind    := .word

def grammar : Grammar where
  rules    := rules
  fallback := some word
  proper   := by decide +kernel

end ArgTree.Expression
