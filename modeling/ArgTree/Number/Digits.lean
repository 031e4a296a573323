namespace ArgTree.Digits

-- The decimal digit of a number below ten.
def digit (n : Nat) : Char :=
  Char.ofNat ('0'.toNat + n % 10)

def digitValue (c : Char) : Nat :=
  c.toNat - '0'.toNat

-- The decimal digits of a number, most significant first, without leading zeros.
def ofNat (n : Nat) : List Char :=
  if n < 10 then [digit n] else ofNat (n / 10) ++ [digit n]

-- How many decimal digits a number has.
def count (n : Nat) : Nat :=
  if n < 10 then 1 else count (n / 10) + 1

-- The number that a row of decimal digits stands for.
def toNat (cs : List Char) : Nat :=
  cs.foldl (fun n c => 10 * n + digitValue c) 0

-- The decimal digits of an integer, behind a `-` if it is negative.
def ofInt : Int → List Char
  | .ofNat n   => ofNat n
  | .negSucc n => '-' :: ofNat (n + 1)

theorem digitValue_digit (n : Nat) : digitValue (digit n) = n % 10 := by
  have h : ∀ d < 10, digitValue (Char.ofNat ('0'.toNat + d)) = d := by decide
  exact h _ (Nat.mod_lt n (by decide))

theorem toNat_append_singleton (cs : List Char) (c : Char) :
    toNat (cs ++ [c]) = 10 * toNat cs + digitValue c := by
  simp [toNat]

theorem toNat_ofNat (n : Nat) : toNat (ofNat n) = n := by
  fun_induction ofNat n
  case case1 n h => simp [toNat, digitValue_digit, Nat.mod_eq_of_lt h]
  case case2 n h hi => rw [toNat_append_singleton, hi, digitValue_digit]; omega

theorem length_ofNat (n : Nat) : (ofNat n).length = count n := by
  fun_induction count n
  case case1 h => unfold ofNat; simp [h]
  case case2 h hi => unfold ofNat; simp [h, hi]

theorem isDigit_digit (n : Nat) : (digit n).isDigit := by
  have h : ∀ d < 10, (Char.ofNat ('0'.toNat + d)).isDigit := by decide
  exact h _ (Nat.mod_lt n (by decide))

theorem isDigit_of_mem_ofNat (h : c ∈ ofNat n) : c.isDigit := by
  fun_induction ofNat n
  case case1 => simp_all [isDigit_digit]
  case case2 hi =>
    rcases List.mem_append.mp h with h | h
    · exact hi h
    · simp_all [isDigit_digit]

theorem ofNat_ne_nil (n : Nat) : ofNat n ≠ [] := by
  unfold ofNat
  split <;> simp

end ArgTree.Digits
