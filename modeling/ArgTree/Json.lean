import ArgTree.Value.Basic

namespace ArgTree.Json

-- A lower-case hexadecimal digit.
def hexDigit (n : Nat) : Char :=
  if n < 10 then Char.ofNat ('0'.toNat + n) else Char.ofNat ('a'.toNat + (n - 10))

-- How a character is written in a string: quotes, backslashes and control characters are escaped.
def character (c : Char) : List Char :=
  match c with
  | '"'    => ['\\', '"']
  | '\\'   => ['\\', '\\']
  | '\x08' => ['\\', 'b']
  | '\x0c' => ['\\', 'f']
  | '\n'   => ['\\', 'n']
  | '\r'   => ['\\', 'r']
  | '\t'   => ['\\', 't']
  | c      =>
    if c.toNat < 0x20 then
      ['\\', 'u', '0', '0', hexDigit (c.toNat / 16), hexDigit (c.toNat % 16)]
    else
      [c]

def string (s : String) : List Char :=
  '"' :: s.toList.flatMap character ++ ['"']

-- JSON has no infinities and no NaN.
def float (f : Binary64) : List Char :=
  if f.isFinite then FloatText.json.write f else "null".toList

-- The JSON text of a value, without spaces.
def write : Value → List Char
  | .str s   => string s
  | .int n   => Digits.ofInt n.toInt
  | .float f => float f
  | .list vs => '[' :: items vs ++ [']']
  | .map es  => '{' :: entries es ++ ['}']
where
  items : List Value → List Char
    | []      => []
    | [v]     => write v
    | v :: vs => write v ++ ',' :: items vs
  entries : List (String × Value) → List Char
    | []           => []
    | [(k, v)]     => string k ++ ':' :: write v
    | (k, v) :: es => string k ++ ':' :: write v ++ ',' :: entries es

-- The same value with the entries of every map in the order of their keys.
def sorted : Value → Value
  | .list vs => .list (items vs)
  | .map es  => .map ((entries es).mergeSort fun a b => a.1 ≤ b.1)
  | v        => v
where
  items : List Value → List Value
    | []      => []
    | v :: vs => sorted v :: items vs
  entries : List (String × Value) → List (String × Value)
    | []           => []
    | (k, v) :: es => (k, sorted v) :: entries es

def text (v : Value) : String :=
  String.ofList (write v)

-- The JSON text of a value with sorted keys.
def sortedText (v : Value) : String :=
  text (sorted v)

end ArgTree.Json
