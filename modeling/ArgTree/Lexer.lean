import ArgTree.Counters
import ArgTree.Grammar

namespace ArgTree

-- Why a text cannot be cut into tokens.
inductive LexCause
  | unexpected
  | refused (message : String)
  | conversion (reason : ConversionError)
  deriving DecidableEq

-- A failure to cut a text into tokens: the text that is at fault and its place.
structure LexError where
  cause  : LexCause
  text   : String
  offset : Nat
  deriving DecidableEq

namespace LexError

def message (e : LexError) : String :=
  match e.cause with
  | .unexpected        => "Unexpected character"
  | .refused message   => message
  | .conversion reason => reason.message

def display (e : LexError) : String :=
  e.message ++ " '" ++ e.text ++ "' at position " ++ String.ofList (Digits.ofNat (e.offset + 1))

end LexError

-- The tokens of a whole text, and the counters after the last one.
structure Lexed where
  tokens   : List Token
  counters : Counters
  deriving DecidableEq

-- A lexer on its way through a text: what is left of the text, and how many characters it has
-- consumed.
structure Lexer where
  grammar  : Grammar
  rest     : List Char
  offset   : Nat := 0
  counters : Counters := {}
  ended    : Bool := false

namespace Lexer

def ofSource (g : Grammar) (source : String) : Lexer where
  grammar := g
  rest    := source.toList

def fail (l : Lexer) (cause : LexCause) (text : List Char) : Except LexError α :=
  .error { cause, text := String.ofList text, offset := l.offset }

-- The piece of text that the first matching rule takes, as a token, and the lexer after it. Nothing
-- is consumed if no rule matches, or if the one that does refuses the text or cannot convert it.
def piece (l : Lexer) : Except LexError (Rule × Token × Lexer) :=
  match l.grammar.match? l.rest with
  | none        => l.fail .unexpected (l.rest.take 1)
  | some (r, n) =>
    let text := l.rest.take n
    match r.refusal with
    | some message => l.fail (.refused message) text
    | none         =>
      match r.convert (String.ofList text) with
      | .error reason => l.fail (.conversion reason) text
      | .ok value     =>
        let stop := l.offset + text.length
        let token := { kind := r.kind, value, text := String.ofList text, span := ⟨l.offset, stop⟩ }
        let counters := (l.counters.addIf r.increment 1).addIf r.decrement (-1)
        .ok (r, token, { l with rest := l.rest.drop n, offset := stop, counters })

theorem rest_length_lt_of_piece {l l' : Lexer} (h : l.piece = .ok (r, t, l')) (hr : l.rest ≠ []) :
    l'.rest.length < l.rest.length := by
  have : 0 < l.rest.length := List.length_pos_iff.mpr hr
  simp only [piece, fail] at h
  split at h <;> try contradiction
  case h_2 hm =>
    have := Grammar.match?_pos hm
    split at h <;> try contradiction
    split at h <;> try contradiction
    injection h with h
    simp only [Prod.mk.injEq] at h
    simp only [← h.right.right, List.length_drop]
    omega

-- The next token that is not ignored, or the one that marks the end of the text. The lexer stays in
-- front of a piece that fails.
def next (l : Lexer) : Except LexError Token × Lexer :=
  if _ : l.rest = [] then (.ok (.endOfText l.offset), { l with ended := true })
  else
    match _ : l.piece with
    | .error e       => (.error e, l)
    | .ok (r, t, l') => if r.ignored then l'.next else (.ok t, l')
termination_by l.rest.length
decreasing_by exact rest_length_lt_of_piece ‹_› ‹_›

-- The next token as an element of a sequence, which the end of the text and the first error end.
def advance (l : Lexer) : Option (Except LexError Token) × Lexer :=
  if l.ended then (none, l)
  else
    match l.next with
    | (.error e, l') => (some (.error e), { l' with ended := true })
    | (.ok t, l')    => (if t.kind = .endOfText then none else some (.ok t), l')

-- The tokens up to the end of the text.
def collect (l : Lexer) : Except LexError Lexed :=
  if _ : l.rest = [] then .ok { tokens := [], counters := l.counters }
  else
    match _ : l.piece with
    | .error e       => .error e
    | .ok (r, t, l') =>
      if r.ignored then l'.collect
      else l'.collect.map fun lexed => { lexed with tokens := t :: lexed.tokens }
termination_by l.rest.length
decreasing_by all_goals exact rest_length_lt_of_piece ‹_› ‹_›

-- The tokens that are left of a text. There are none once the lexer has ended.
def remaining (l : Lexer) : Except LexError Lexed :=
  if l.ended then .ok { tokens := [], counters := l.counters } else l.collect

end Lexer

def Grammar.lex (g : Grammar) (source : String) : Except LexError Lexed :=
  (Lexer.ofSource g source).remaining

end ArgTree
