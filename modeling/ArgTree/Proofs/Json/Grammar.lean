import ArgTree.Number.FloatNumeral
import ArgTree.Value.Basic

namespace ArgTree

-- The grammar of JSON. A phrase goes from the text in front of which it stands to the
-- text behind it, and denotes a value on the way.
namespace Json

def isBlank (c : Char) : Bool :=
  c = ' ' || c = '\t' || c = '\n' || c = '\r'

-- Blanks may stand in front of every token and at the end.
def skipBlanks (cs : List Char) : List Char :=
  cs.dropWhile isBlank

-- The value of a hexadecimal digit, in either case of letters.
def hexValue? (c : Char) : Option Nat :=
  if c.isDigit then some (Digits.digitValue c)
  else if 'a' ≤ c ∧ c ≤ 'f' then some (c.toNat - 'a'.toNat + 10)
  else if 'A' ≤ c ∧ c ≤ 'F' then some (c.toNat - 'A'.toNat + 10)
  else none

-- Four hexadecimal digits are a unit of UTF-16.
inductive CodeUnit : List Char → Nat → List Char → Prop
  | intro : hexValue? a = some i → hexValue? b = some j → hexValue? c = some k →
            hexValue? d = some l →
            CodeUnit (a :: b :: c :: d :: cs) (((i * 16 + j) * 16 + k) * 16 + l) cs

-- What a letter or a mark behind a `\` stands for.
def escape? : Char → Option Char
  | '"'  => some '"'
  | '\\' => some '\\'
  | '/'  => some '/'
  | 'b'  => some '\x08'
  | 'f'  => some '\x0c'
  | 'n'  => some '\n'
  | 'r'  => some '\r'
  | 't'  => some '\t'
  | _    => none

-- A character of a string. One that has no single unit of UTF-16 is two of them.
inductive Character : List Char → Char → List Char → Prop
  | plain   : c ≠ '"' → c ≠ '\\' → 0x20 ≤ c.toNat → Character (c :: cs) c cs
  | escaped : escape? e = some c → Character ('\\' :: e :: cs) c cs
  | unit    : CodeUnit cs c.toNat ds → Character ('\\' :: 'u' :: cs) c ds
  | pair    : CodeUnit cs high ('\\' :: 'u' :: ds) → CodeUnit ds low es →
              0xD800 ≤ high ∧ high < 0xDC00 → 0xDC00 ≤ low ∧ low < 0xE000 →
              c.toNat = 0x10000 + (high - 0xD800) * 0x400 + (low - 0xDC00) →
              Character ('\\' :: 'u' :: cs) c es

-- The characters of a string behind its first quote, and the second one.
inductive Characters : List Char → List Char → List Char → Prop
  | quote : Characters ('"' :: cs) [] cs
  | cons  : Character cs c ds → Characters ds s es → Characters cs (c :: s) es

-- Digits of which the first is no zero, unless it is the only one.
structure IsWhole (ds : List Char) : Prop where
  digits : ∀ c ∈ ds, c.isDigit
  ne_nil : ds ≠ []
  proper : ds.head? = some '0' → ds = ['0']

def IsFraction (cs : List Char) : Prop :=
  ∃ ds, cs = '.' :: ds ∧ ds ≠ [] ∧ ∀ c ∈ ds, c.isDigit

def IsExponent (cs : List Char) : Prop :=
  ∃ e sign ds, cs = e :: (sign ++ ds) ∧ (e = 'e' ∨ e = 'E') ∧
    (sign = [] ∨ sign = ['+'] ∨ sign = ['-']) ∧ ds ≠ [] ∧ ∀ c ∈ ds, c.isDigit

-- Numbers with neither a fraction nor an exponent, and those with one of them or both.
def IsInteger (cs : List Char) : Prop :=
  ∃ sign whole, cs = sign ++ whole ∧ (sign = [] ∨ sign = ['-']) ∧ IsWhole whole

def IsReal (cs : List Char) : Prop :=
  ∃ sign whole fraction exponent, cs = sign ++ (whole ++ (fraction ++ exponent)) ∧
    (sign = [] ∨ sign = ['-']) ∧ IsWhole whole ∧ (fraction = [] ∨ IsFraction fraction) ∧
    (exponent = [] ∨ IsExponent exponent) ∧ (fraction ≠ [] ∨ exponent ≠ [])

-- The characters of numbers. A number goes as far as they do.
def isNumeric (c : Char) : Bool :=
  c.isDigit || c = '-' || c = '+' || c = '.' || c = 'e' || c = 'E'

-- An integer has to be in the range of 64 bits, and the float is the nearest one.
inductive Number : List Char → Value → Prop
  | integer : IsInteger cs → Numeral.integer? cs = .ok n → Number cs (.int n)
  | real    : IsReal cs → FloatNumeral.float? cs = .ok f → Number cs (.float f)

mutual

-- There are no values for `true`, `false` and `null`.
inductive Phrase : List Char → Value → List Char → Prop
  | string    : Characters cs s ds → Phrase ('"' :: cs) (.str (String.ofList s)) ds
  | number    : Number (cs.takeWhile isNumeric) v → Phrase cs v (cs.dropWhile isNumeric)
  | noItems   : skipBlanks cs = ']' :: ds → Phrase ('[' :: cs) (.list []) ds
  | items     : Items cs vs ds → Phrase ('[' :: cs) (.list vs) ds
  | noMembers : skipBlanks cs = '}' :: ds → Phrase ('{' :: cs) (.map []) ds
  | members   : Members cs es ds → Phrase ('{' :: cs) (.map es) ds

-- The items of a list behind its first bracket, and the second one.
inductive Items : List Char → List Value → List Char → Prop
  | last : Phrase (skipBlanks cs) v ds → skipBlanks ds = ']' :: es → Items cs [v] es
  | more : Phrase (skipBlanks cs) v ds → skipBlanks ds = ',' :: es → Items es vs fs →
           Items cs (v :: vs) fs

inductive Member : List Char → String × Value → List Char → Prop
  | intro : skipBlanks cs = '"' :: ds → Characters ds k es → skipBlanks es = ':' :: fs →
            Phrase (skipBlanks fs) v gs → Member cs (String.ofList k, v) gs

-- The entries of a map behind its first bracket, and the second one.
inductive Members : List Char → List (String × Value) → List Char → Prop
  | last : Member cs e ds → skipBlanks ds = '}' :: gs → Members cs [e] gs
  | more : Member cs e ds → skipBlanks ds = ',' :: fs → Members fs es gs → Members cs (e :: es) gs

end

-- A whole text denotes a value.
def Denotes (text : String) (v : Value) : Prop :=
  ∃ rest, Phrase (skipBlanks text.toList) v rest ∧ skipBlanks rest = []

end Json

end ArgTree
