import ArgTree.Parser.Lookahead
import ArgTree.ParseError

namespace ArgTree

-- How the items of a level are separated. This is open until the first delimiter.
inductive Convention
  | undetermined
  | comma
  | whitespace
  deriving DecidableEq

-- The kind of delimiter that belongs to the other convention.
def Convention.oppositeDelimiter? : Convention → Option Kind
  | undetermined => none
  | comma        => some .whitespace
  | whitespace   => some .comma

-- What ends a level: the end of the text, a closing bracket, or, for a group inside a level of the
-- other convention, whatever ends or separates the items of that level.
inductive Close
  | endOfText
  | bracket (kind : Kind)
  | group (convention : Convention)
  deriving DecidableEq

-- What a level makes of the next lexeme: it goes on, it is complete without the lexeme, or its last
-- item is the first one of a group of the other convention.
inductive Verdict
  | proceed
  | complete
  | regroup (convention : Convention)
  deriving DecidableEq

-- Why a row of lexemes is no expression.
inductive Cause
  | invalidCharacter
  | invalidEntry
  | invalidAssignment
  | boundlessVerbatim
  | unexpectedClose
  | delimiterExpected
  | itemExpected
  | whitespaceExpected
  | unexpectedEnd
  | danglingEscape
  | unclosedVerbatim
  | nestingTooDeep
  deriving DecidableEq

namespace Cause

def kind : Cause → ErrorKind
  | invalidCharacter   => .invalidCharacter
  | invalidEntry       => .invalidCharacter
  | invalidAssignment  => .invalidCharacter
  | boundlessVerbatim  => .invalidCharacter
  | unexpectedClose    => .unexpectedClose
  | delimiterExpected  => .delimiterExpected
  | itemExpected       => .itemExpected
  | whitespaceExpected => .whitespaceExpected
  | unexpectedEnd      => .unexpectedEnd
  | danglingEscape     => .unexpectedEnd
  | unclosedVerbatim   => .unexpectedEnd
  | nestingTooDeep     => .nestingTooDeep

def message : Cause → String
  | invalidEntry      => "Invalid character found while building hash"
  | invalidAssignment => "Invalid assignment"
  | boundlessVerbatim => "Verbatim regions must end at a bracket"
  | danglingEscape    => "Escape characters cannot be last"
  | unclosedVerbatim  => "Unclosed verbatim region"
  | c                 => c.kind.defaultMessage

end Cause

-- The state of a level: what was read last, and what is known about its delimiters.
structure Level where
  close         : Close
  convention    : Convention := .undetermined
  haveItem      : Bool := false
  haveDelimiter : Bool := false
  deriving DecidableEq

namespace Level

-- The state at the start of a level. A group starts behind the delimiter that gave rise to it.
def start : Close → Level
  | .group c => { close := .group c, convention := c, haveDelimiter := true }
  | close    => { close }

-- Takes note of an item that begins with a lexeme of kind `k`. Items that follow each other without
-- a delimiter make whitespace the convention. Where it is the comma they end the level, unless the
-- second one begins with a bracket.
def item (l : Level) (k : Kind) : Verdict × Level :=
  if l.haveItem ∧ l.convention = .comma ∧ !k.isOpening ∧ !k.isClosing then (.complete, l)
  else
    let convention :=
      if l.haveItem ∧ l.convention = .undetermined then .whitespace else l.convention
    (.proceed, { l with convention, haveItem := true, haveDelimiter := false })

-- The last thing read is a delimiter.
def delimited (l : Level) : Level :=
  { l with haveItem := false, haveDelimiter := true }

-- Takes note of a delimiter of kind `k`. The first one decides the convention, and one of the other
-- convention starts a group.
def delimiter (l : Level) (k : Kind) : Except Cause (Verdict × Level) :=
  match k, l.convention with
  | .comma, .whitespace =>
    if l.haveItem then .ok (.regroup .comma, l) else .error .whitespaceExpected
  | .comma, .comma =>
    if l.haveDelimiter then .error .itemExpected else .ok (.proceed, l.delimited)
  | .comma, .undetermined =>
    if l.haveItem then .ok (.proceed, { l with convention := .comma }.delimited)
    else .error .itemExpected
  | .whitespace, .undetermined =>
    if l.haveItem then .ok (.proceed, { l with convention := .whitespace }.delimited)
    else .ok (.proceed, l.delimited)
  | .whitespace, .comma =>
    if l.haveItem then .ok (.regroup .whitespace, l) else .ok (.proceed, l.delimited)
  | _, _ => .ok (.proceed, l.delimited)

-- The last item has become a group.
def regrouped (l : Level) : Level :=
  { l with haveItem := true, haveDelimiter := false }

-- Whether a group ends in front of a lexeme of kind `k`.
def groupEndsAt (l : Level) (k : Kind) : Bool :=
  match l.close with
  | .group c => k.isClosing || c.oppositeDelimiter? = some k
  | _        => false

-- Whether a level ends in front of a lexeme of kind `k`. A bracket level ends behind its bracket.
def endsAt (l : Level) (k : Kind) : Bool :=
  match l.close with
  | .endOfText => k = .endOfText
  | .group _   => k = .endOfText || l.groupEndsAt k
  | .bracket _ => false

end Level

end ArgTree
