import ArgTree.Reading
import ArgTree.Parser.Level
import ArgTree.Value.Basic

namespace ArgTree

-- A failure in front of the lexemes that were still to be read.
structure Fault where
  cause : Cause
  rest  : List Lexeme
  deriving DecidableEq

-- The outcome of reading a row of lexemes: a value and fewer than `bound` lexemes, or a failure.
abbrev Outcome (bound : Nat) (α : Type) := Except Fault (Reading Lexeme bound α)

namespace Outcome

variable {n m : Nat} {α β : Type}

def fail (cause : Cause) (rest : List Lexeme) : Outcome n α :=
  .error ⟨cause, rest⟩

def widen (o : Outcome n α) (h : n ≤ m := by grind) : Outcome m α :=
  Except.map (·.widen h) o

def mapValue (f : α → β) (o : Outcome n α) : Outcome n β :=
  Except.map (·.map f) o

-- Goes on with what was read.
def andThen (o : Outcome n α) (f : Reading Lexeme n α → Outcome m β) : Outcome m β :=
  Except.bind o f

end Outcome

namespace Parser

open Lookahead

-- Reads the rest of an escape behind its first `\`: further backslashes and the lexeme behind them
-- are text.
def escaped : (ts : List Lexeme) → Outcome ts.length String
  | []      => .fail .danglingEscape []
  | t :: ts =>
    if t.kind = .escape then ((escaped ts).mapValue (t.text ++ ·)).widen (Nat.le_succ _)
    else .ok ⟨t.text, ts, Nat.lt_succ_self _⟩

-- Reads the text up to and including the bracket that closes a verbatim region. Brackets of its
-- family nest in it (`depth` are open), and an escape protects the next lexeme.
def verbatim (close : Kind) : (depth : Nat) → (ts : List Lexeme) → Outcome ts.length String
  | _, []           => .fail .unclosedVerbatim []
  | depth, t :: ts  =>
    if t.kind = .escape then
      match ts with
      | []      => .fail .danglingEscape []
      | u :: ts =>
        ((verbatim close depth ts).mapValue (t.text ++ u.text ++ ·)).widen (Nat.le_add_right _ 2)
    else if t.kind = close then
      match depth with
      | 0         => .ok ⟨t.text, ts, Nat.lt_succ_self _⟩
      | depth + 1 => ((verbatim close depth ts).mapValue (t.text ++ ·)).widen (Nat.le_succ _)
    else if close.opening? = some t.kind then
      ((verbatim close (depth + 1) ts).mapValue (t.text ++ ·)).widen (Nat.le_succ _)
    else
      ((verbatim close depth ts).mapValue (t.text ++ ·)).widen (Nat.le_succ _)

-- What can be read one level further in: the items of a bracket or of a group whose first item is
-- known, or the entries of a hash.
inductive Nested
  | list (close : Kind)
  | group (convention : Convention) (first : Option Value)
  | hash

-- Reads what is nested behind the lexeme that opens it.
abbrev Inner := Nested → (opener : Lexeme) → (ts : List Lexeme) → Outcome (ts.length + 1) Value

variable (inner : Inner)

-- Reads the value of an assignment: an element, a hash, or the list in a bracket.
def assigned : (ts : List Lexeme) → Outcome ts.length Value
  | []      => .fail .invalidAssignment []
  | t :: ts =>
    if t.kind = .lCurly then inner .hash t ts
    else
      match t.kind.closing? with
      | some close => inner (.list close) t ts
      | none       =>
        if t.kind.isElement then .ok ⟨.ofScalar t.value, ts, Nat.lt_succ_self _⟩
        else .fail .invalidAssignment (t :: ts)

-- Reads an assignment: the text of its key and its value.
def assignment (ts : List Lexeme) : Outcome ts.length (String × Value) :=
  match ts with
  | []      => .fail .invalidAssignment []
  | t :: ts =>
    match h : assignment? (t :: ts) with
    | none   => .fail .invalidAssignment (t :: ts)
    | some a =>
      have := length_value_lt h
      ((assigned inner a.value).mapValue (a.key.text, ·)).widen

-- Reads the entries of a hash behind its opening bracket. `ready` says that an entry must come
-- next: at the start and behind a comma.
def entries (ready : Bool) (es : Entries Value) (ts : List Lexeme) :
    Outcome ts.length (Entries Value) :=
  match h : skipWhitespace ts with
  | []      => .fail .unexpectedEnd []
  | t :: us =>
    have hl : us.length < ts.length := length_lt_of_skipWhitespace h
    if t.kind = .rCurly then
      if ready then .fail .itemExpected (t :: us) else .ok ⟨es, us, hl⟩
    else if t.kind = .comma then
      if ready then .fail .itemExpected (t :: us)
      else (entries true es us).widen
    else if (assignment? (t :: us)).isNone then .fail .invalidEntry (t :: us)
    else if !ready then .fail .delimiterExpected (t :: us)
    else
      (assignment inner (t :: us)).andThen fun ⟨(key, value), vs, hv⟩ =>
        (entries false (es.insert key value) vs).widen
termination_by ts.length
decreasing_by
  · exact hl
  · simp only [List.length_cons] at hv
    omega

-- Reads one item that begins with `t`.
def item (t : Lexeme) (ts : List Lexeme) : Outcome (ts.length + 1) Value :=
  match role (t :: ts) with
  | .escape     => ((escaped ts).mapValue .str).widen
  | .paren      => ((verbatim .rParen 0 ts).mapValue fun s => .str (t.text ++ s)).widen
  | .hash       => inner .hash t ts
  | .array      => inner (.list .rSquare) t ts
  | .assignment => (assignment inner (t :: ts)).mapValue fun (key, value) => .map [(key, value)]
  | _           =>
    if t.kind.isElement then .ok ⟨.ofScalar t.value, ts, by grind⟩
    else .fail .invalidCharacter (t :: ts)

-- Reads the items of a level from the state `l` on, behind the ones that were already read (`last`
-- first).
def items (l : Level) (last : List Value) (ts : List Lexeme) :
    Outcome (ts.length + 1) (List Value) :=
  if l.endsAt (kind ts) then
    if l.haveDelimiter then .fail .itemExpected ts else .ok ⟨last.reverse, ts, by grind⟩
  else
    match ts with
    | []      => .fail .unexpectedEnd []
    | t :: ts =>
      match role (t :: ts) with
      | .close =>
        if l.close ≠ .bracket t.kind then .fail .unexpectedClose (t :: ts)
        else if l.haveDelimiter then .fail .itemExpected (t :: ts)
        else .ok ⟨last.reverse, ts, by grind⟩
      | .whitespace | .comma =>
        match l.delimiter t.kind with
        | .error cause               => .fail cause (t :: ts)
        | .ok (.proceed, l)          => (items l last ts).widen
        | .ok (.complete, _)         => .ok ⟨last.reverse, t :: ts, by grind⟩
        | .ok (.regroup c, l)        =>
          (inner (.group c last.head?) t ts).andThen fun ⟨group, us, hu⟩ =>
            (items l.regrouped (group :: last.tail) us).widen
      | what =>
        if what = .other ∧ !t.kind.isElement then .fail .invalidCharacter (t :: ts)
        else
          match l.item t.kind with
          | (.complete, _) =>
            match l.close with
            | .bracket _ => .fail .delimiterExpected (t :: ts)
            | _          => .ok ⟨last.reverse, t :: ts, by grind⟩
          | (_, l) =>
            (item inner t ts).andThen fun ⟨value, us, hu⟩ =>
              have hp := length_skipPadding_le us
              (items l (value :: last) (skipPadding us)).widen
termination_by ts.length
decreasing_by all_goals simp only [List.length_cons] at *; omega

-- Reads a level from its start on. It may not begin with a comma or a closing bracket.
def level (close : Close) (first : Option Value) (ts : List Lexeme) :
    Outcome (ts.length + 1) (List Value) :=
  let l := Level.start close
  let us := skipWhitespace ts
  if kind us = .comma ∨ (kind us).isClosing then
    .fail (if l.haveDelimiter then .itemExpected else .invalidCharacter) us
  else
    have := length_skipWhitespace_le ts
    (items inner l first.toList us).widen

-- Reads what is nested behind `opener`, if `depth` more levels may be opened.
def nested : (depth : Nat) → Inner
  | 0, _, opener, ts =>
    .fail .nestingTooDeep (opener :: ts)
  | depth + 1, .list close, _, ts =>
    (level (nested depth) (.bracket close) none ts).mapValue .list
  | depth + 1, .group c first, _, ts =>
    (level (nested depth) (.group c) first ts).mapValue .list
  | depth + 1, .hash, _, ts =>
    ((entries (nested depth) true [] ts).mapValue .map).widen

end Parser

end ArgTree
