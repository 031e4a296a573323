import ArgTree.Number.Digits

namespace ArgTree

-- Why a text is no integer of the expected range.
inductive IntegerError
  | empty
  | invalidDigit
  | tooLarge
  | tooSmall
  deriving DecidableEq

namespace IntegerError

def message : IntegerError → String
  | empty        => "cannot parse integer from empty string"
  | invalidDigit => "invalid digit found in string"
  | tooLarge     => "number too large to fit in target type"
  | tooSmall     => "number too small to fit in target type"

end IntegerError

namespace Numeral

-- Reads decimal digits as a continuation of `n`. The first character that is no digit or that takes
-- the number past `limit` decides the error.
def magnitude (limit : Nat) (overflow : IntegerError) : Nat → List Char → Except IntegerError Nat
  | n, [] => .ok n
  | n, c :: cs =>
    if !c.isDigit then .error .invalidDigit
    else if limit < 10 * n + Digits.digitValue c then .error overflow
    else magnitude limit overflow (10 * n + Digits.digitValue c) cs

-- Reads at least one decimal digit.
def unsigned (limit : Nat) (overflow : IntegerError) : List Char → Except IntegerError Nat
  | [] => .error .invalidDigit
  | cs => magnitude limit overflow 0 cs

-- Reads a 64-bit integer: an optional sign and decimal digits.
def integer? : List Char → Except IntegerError Int64
  | []        => .error .empty
  | '-' :: cs => (unsigned (Nat.pow 2 63) .tooSmall cs).map (fun n => Int64.ofInt (-n))
  | '+' :: cs => (unsigned (Nat.pow 2 63 - 1) .tooLarge cs).map (fun n => Int64.ofInt n)
  | cs        => (unsigned (Nat.pow 2 63 - 1) .tooLarge cs).map (fun n => Int64.ofInt n)

-- Reads a place in a list: an optional `+` and decimal digits, at most 2⁶⁴ - 1.
def index? : List Char → Option Nat
  | '+' :: cs => (unsigned (Nat.pow 2 64 - 1) .tooLarge cs).toOption
  | cs        => (unsigned (Nat.pow 2 64 - 1) .tooLarge cs).toOption

end Numeral

end ArgTree
