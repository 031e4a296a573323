import ArgTree.Reading
import ArgTree.Number.Digits
import ArgTree.Regex.Basic

namespace ArgTree.Regex

-- What the source text of a regular expression is made of.
inductive Piece
  | atom (r : Regex)
  | opening
  | closing
  | bar
  | quantifier (least : Nat) (most : Option Nat) (greedy : Bool)

namespace Piece

abbrev Read (cs : List Char) (α : Type) := Option (Reading Char cs.length α)

-- The meaning of a character behind a `\`: a class, a control character, or an ASCII punctuation
-- mark that stands for itself. Other letters and digits have none.
def escapedSet? (c : Char) : Option CharSet :=
  match c with
  | 's' => some .whiteSpace
  | 'S' => some (.complement .whiteSpace)
  | 'd' => some .decimalDigit
  | 'D' => some (.complement .decimalDigit)
  | 'w' => some .wordCharacter
  | 'W' => some (.complement .wordCharacter)
  | 't' => some (.single '\t')
  | 'n' => some (.single '\n')
  | 'r' => some (.single '\r')
  | c   =>
    if 0x20 < c.toNat ∧ c.toNat < 0x7F ∧ !c.isAlphanum ∧ c ≠ '<' ∧ c ≠ '>' then some (.single c)
    else none

-- What a bracketed class is made of.
inductive Member
  | set (s : CharSet)
  | char (c : Char)
  | dash

-- Reads the members of a bracketed class and its `]`.
def members? : (cs : List Char) → Read cs (List Member)
  | []              => none
  | ']' :: cs       => some ⟨[], cs, by grind⟩
  | '[' :: _        => none
  | '-' :: cs       => (members? cs).map fun r => (r.map (.dash :: ·)).widen
  | '\\' :: []      => none
  | '\\' :: c :: cs =>
    match escapedSet? c with
    | none                  => none
    | some (.range c _)     => (members? cs).map fun r => (r.map (.char c :: ·)).widen
    | some s                => (members? cs).map fun r => (r.map (.set s :: ·)).widen
  | c :: cs         => (members? cs).map fun r => (r.map (.char c :: ·)).widen

-- The class of some members. A `-` between two characters makes a range; at either end of a class
-- it stands for itself, and it may not stand anywhere else.
def union? : List Member → Option CharSet
  | []                              => none
  | [.dash]                         => some (.single '-')
  | [.set s]                        => some s
  | [.char c]                       => some (.single c)
  | .char a :: .dash :: .char b :: ms =>
    if b < a then none
    else if ms.isEmpty then some (.range a b)
    else (union? ms).map (.union (.range a b))
  | [.char a, .dash]                => some (.union (.single a) (.single '-'))
  | [.set s, .dash]                 => some (.union s (.single '-'))
  | _ :: .dash :: _                 => none
  | .set s :: ms                    => (union? ms).map (.union s)
  | .char c :: ms                   => (union? ms).map (.union (.single c))
  | .dash :: _                      => none

-- A `-` or a `]` in first place stands for itself.
def open? : (cs : List Char) → Read cs CharSet
  | '-' :: cs => rest? '-' cs
  | ']' :: cs => rest? ']' cs
  | cs        => (members? cs).bind fun ⟨ms, rest, h⟩ => (union? ms).map (⟨·, rest, h⟩)
where
  rest? (c : Char) (cs : List Char) : Option (Reading Char (cs.length + 1) CharSet) :=
    (members? cs).bind fun ⟨ms, rest, h⟩ =>
      (union? (.char c :: ms)).map (⟨·, rest, Nat.lt_succ_of_lt h⟩)

-- Reads a bracketed class behind its `[`.
def class? : (cs : List Char) → Read cs CharSet
  | '^' :: cs => (open? cs).map fun r => (r.map .complement).widen
  | cs        => open? cs

-- Reads a row of decimal digits, at least one.
def count? (cs : List Char) : Read cs Nat :=
  let digits := cs.takeWhile Char.isDigit
  let rest := cs.dropWhile Char.isDigit
  if h : rest.length < cs.length then some ⟨Digits.toNat digits, rest, h⟩ else none

-- Reads the bounds of a counted repetition behind its opening brace.
def bounds? (cs : List Char) : Read cs (Nat × Option Nat) :=
  match count? cs with
  | none => none
  | some ⟨least, '}' :: rest, h⟩ => some ⟨(least, some least), rest, by grind⟩
  | some ⟨least, ',' :: '}' :: rest, h⟩ => some ⟨(least, none), rest, by grind⟩
  | some ⟨least, ',' :: rest, h⟩ =>
    match count? rest with
    | some ⟨most, '}' :: rest', h'⟩ =>
      if least ≤ most then some ⟨(least, some most), rest', by grind⟩ else none
    | _ => none
  | some _ => none

-- A quantifier is lazy if a `?` follows it.
def quantifierThen (least : Nat) (most : Option Nat) {n : Nat} :
    (rest : List Char) → rest.length < n → Reading Char n Piece
  | '?' :: rest, h => ⟨.quantifier least most false, rest, by grind⟩
  | rest,        h => ⟨.quantifier least most true, rest, h⟩

def next? : (cs : List Char) → Read cs Piece
  | []                      => none
  | '\\' :: 'A' :: cs       => some ⟨.atom .textStart, cs, by grind⟩
  | '\\' :: 'b' :: cs       => some ⟨.atom .wordBoundary, cs, by grind⟩
  | '\\' :: c :: cs         => (escapedSet? c).map fun s => ⟨.atom (.set s), cs, by grind⟩
  | '\\' :: []              => none
  | '[' :: cs               => (class? cs).map fun r => (r.map (.atom ∘ .set)).widen
  | '(' :: '?' :: ':' :: cs => some ⟨.opening, cs, by grind⟩
  | '(' :: '?' :: _         => none
  | '(' :: cs               => some ⟨.opening, cs, by grind⟩
  | ')' :: cs               => some ⟨.closing, cs, by grind⟩
  | '|' :: cs               => some ⟨.bar, cs, by grind⟩
  | '.' :: cs               => some ⟨.atom (.set .anyButNewline), cs, by grind⟩
  | '^' :: cs               => some ⟨.atom .textStart, cs, by grind⟩
  | '$' :: cs               => some ⟨.atom .textEnd, cs, by grind⟩
  | '*' :: cs               => some (quantifierThen 0 none cs (by grind))
  | '+' :: cs               => some (quantifierThen 1 none cs (by grind))
  | '?' :: cs               => some (quantifierThen 0 (some 1) cs (by grind))
  | '{' :: cs               =>
    (bounds? cs).map fun ⟨(least, most), rest, h⟩ => quantifierThen least most rest (by grind)
  | c :: cs                 => some ⟨.atom (.set (.single c)), cs, by grind⟩

def all? (cs : List Char) : Option (List Piece) :=
  if cs = [] then some []
  else
    match next? cs with
    | none              => none
    | some ⟨p, rest, _⟩ => (all? rest).map (p :: ·)
termination_by cs.length

end Piece

-- One expression after the other.
def concat : List Regex → Regex
  | []      => empty
  | [r]     => r
  | r :: rs => seq r (concat rs)

-- `r` at most `n` times.
def upTo (greedy : Bool) (r : Regex) : Nat → Regex
  | 0     => empty
  | n + 1 =>
    let more := seq r (upTo greedy r n)
    if greedy then alt more empty else alt empty more

def repeated (least : Nat) (most : Option Nat) (greedy : Bool) (r : Regex) : Regex :=
  match least, most with
  | 0,     none      => star greedy r
  | 0,     some most => upTo greedy r most
  | least, none      => concat (List.replicate least r ++ [star greedy r])
  | least, some most =>
    if most = least then concat (List.replicate least r)
    else concat (List.replicate least r ++ [upTo greedy r (most - least)])

-- A group under construction: its finished alternatives, if any, and the current one, last part
-- first.
structure Group where
  alternatives : Option Regex := none
  current      : List Regex := []

namespace Group

def close (g : Group) : Regex :=
  let last := concat g.current.reverse
  match g.alternatives with
  | none   => last
  | some r => alt r last

def add (g : Group) (r : Regex) : Group :=
  { g with current := r :: g.current }

-- Builds a regular expression from its pieces, inside the group `g` and the groups around it. There
-- is none if brackets do not match or a quantifier has nothing to repeat.
def build : List Piece → (outer : List Group) → (g : Group) → Option Regex
  | [],             [],         g => some g.close
  | [],             _ :: _,     _ => none
  | .atom r :: ps,  outer,      g => build ps outer (g.add r)
  | .opening :: ps, outer,      g => build ps (g :: outer) {}
  | .closing :: ps, o :: outer, g => build ps outer (o.add g.close)
  | .closing :: _,  [],         _ => none
  | .bar :: ps,     outer,      g => build ps outer { alternatives := some g.close }
  | .quantifier least most greedy :: ps, outer, g =>
    match g.current with
    | []      => none
    | r :: rs => build ps outer { g with current := repeated least most greedy r :: rs }

end Group

-- Reads a regular expression as if a group that is anchored at the start of the text were written
-- around its source.
def ofSource? (source : String) : Option Regex :=
  (Piece.all? ("\\A(?:".toList ++ source.toList ++ [')'])).bind (Group.build · [] {})

end ArgTree.Regex
