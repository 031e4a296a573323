import ArgTree.Regex.Source
import ArgTree.Number.FloatNumeral
import ArgTree.Token.Basic

namespace ArgTree

-- Why there is no grammar of some rules.
inductive GrammarError
  | invalidPattern (source : String)
  | unknownKind (name : String)
  | reservedKind (kind : Kind)
  deriving DecidableEq

def GrammarError.message : GrammarError → String
  | invalidPattern source => "invalid pattern `" ++ source ++ "`"
  | unknownKind name      => "unknown token kind `" ++ name ++ "`"
  | reservedKind kind     => "token kind `" ++ kind.name ++ "` cannot be produced by a rule"

-- What a compiled regular expression does: it says how many characters it matches at the start of a
-- text. These are no more than there are.
structure Matcher where
  length?   : List Char → Option Nat
  length_le : ∀ {cs n}, length? cs = some n → n ≤ cs.length

def Regex.matcher (r : Regex) : Matcher where
  length?   := r.matchLength?
  length_le := length_le_of_matchLength? (r := r)

-- What a rule matches: a given text, or what a regular expression matches at the start of the text.
inductive Pattern
  | literal (text : String)
  | regex (source : String) (matcher : Matcher)

namespace Pattern

def ofRegex (source : String) : Except GrammarError Pattern :=
  match Regex.ofSource? source with
  | some r => .ok (regex source r.matcher)
  | none   => .error (.invalidPattern source)

-- The pattern as it was written.
def source : Pattern → String
  | literal text   => text
  | regex source _ => source

def isLiteral : Pattern → Bool
  | literal _ => true
  | regex ..  => false

-- Whether two patterns were written alike.
def agrees (p q : Pattern) : Bool :=
  p.isLiteral = q.isLiteral && p.source = q.source

-- The number of characters that a pattern matches at the start of a text. A match of no characters
-- is none, since a rule that consumes nothing would never let the text end.
def matchLength? (p : Pattern) (cs : List Char) : Option Nat :=
  let length? :=
    match p with
    | literal text => if text.toList.isPrefixOf cs then some text.length else none
    | regex _ m    => m.length? cs
  length?.filter (0 < ·)

-- The number of bytes of the match in UTF-8.
def matchSize? (p : Pattern) (text : String) : Option Nat :=
  (p.matchLength? text.toList).map fun n => (String.ofList (text.toList.take n)).utf8ByteSize

theorem matchLength?_pos {p : Pattern} (h : p.matchLength? cs = some n) : 0 < n := by
  simpa using (Option.filter_eq_some_iff.mp h).right

theorem matchLength?_le {p : Pattern} (h : p.matchLength? cs = some n) : n ≤ cs.length := by
  simp only [matchLength?, Option.filter_eq_some_iff] at h
  obtain ⟨h, -⟩ := h
  cases p
  case literal text =>
    simp only at h
    split at h <;> cases h
    case isTrue hp =>
      exact String.length_toList ▸ (List.isPrefixOf_iff_prefix.mp hp).length_le
  case regex m => exact m.length_le h

end Pattern

-- Why a matched text has no value.
inductive ConversionError
  | integer (text : String) (reason : IntegerError)
  | float (text : String) (reason : FloatError)
  | other (message : String)
  deriving DecidableEq

def ConversionError.message : ConversionError → String
  | integer text reason => "invalid integer `" ++ text ++ "`: " ++ reason.message
  | float text reason   => "invalid float `" ++ text ++ "`: " ++ reason.message
  | other message       => message

-- How a matched text is turned into a value. There are two ways for numbers, and a grammar may have
-- ways of its own.
inductive Conversion
  | integer
  | float
  | other (convert : String → Except String Scalar)

namespace Conversion

def apply (text : String) : Conversion → Except ConversionError Scalar
  | integer       => (Numeral.integer? text.toList).map .int |>.mapError (.integer text)
  | float         => (FloatNumeral.float? text.toList).map .float |>.mapError (.float text)
  | other convert => (convert text).mapError .other

instance : (c : Option Conversion) → Decidable (c = some integer)
  | some integer                        => .isTrue rfl
  | none | some float | some (other _)  => .isFalse nofun

instance : (c : Option Conversion) → Decidable (c = some float)
  | some float                           => .isTrue rfl
  | none | some integer | some (other _) => .isFalse nofun

end Conversion

-- A lexical rule: what it matches, the kind of its tokens, and what else a match does.
structure Rule where
  pattern    : Pattern
  kind       : Kind
  conversion : Option Conversion := none
  -- Matches are consumed, but give no token.
  ignored    : Bool := false
  -- A match fails with this message.
  refusal    : Option String := none
  -- The counters that a match takes one up and one down.
  increment  : Option String := none
  decrement  : Option String := none

namespace Rule

-- The kind that a rule names.
def kindNamed (name : String) : Except GrammarError Kind :=
  match Kind.ofName? name with
  | some kind => .ok kind
  | none      => .error (.unknownKind name)

-- The value of a text that the rule matched.
def convert (r : Rule) (text : String) : Except ConversionError Scalar :=
  match r.conversion with
  | some c => c.apply text
  | none   => .ok (.str text)

-- Whether two rules match the same and do the same with it. It counts that they convert, not to
-- what.
def agrees (r s : Rule) : Bool :=
  r.pattern.agrees s.pattern && r.kind = s.kind && r.conversion.isSome = s.conversion.isSome
    && r.ignored = s.ignored && r.refusal = s.refusal && r.increment = s.increment
    && r.decrement = s.decrement

end Rule

end ArgTree
