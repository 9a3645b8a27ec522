/-! # Numerals

Numbers written with digits `0`–`9`, `A`–`F` in a positional notation, most significant digit first.  A number
is written with upper-case digits, optionally zero-padded on the left; digits are read in either case.

`read?` reads a number of 32 bits digit by digit and gives up as soon as it needs more bits; that product and sum
are exact as long as they are given is what `product?_eq_some_iff` and `sum?_eq_some_iff` say.
-/

namespace WordMachine.Numeral

/-- The digits of a number, most significant first; zero is the one digit `0`. -/
def digits (base number : Nat) : List Char :=
  (Nat.toDigits base number).map Char.toUpper

/-- The digits of a number with as many zeros in front as fill `width` places. -/
def padded (base width number : Nat) : List Char :=
  (digits base number).leftpad width '0'

/-- The number that a character stands for as a digit below sixteen. -/
def digitValue? (c : Char) : Option Nat :=
  if '0' ≤ c ∧ c ≤ '9' then some (c.toNat - '0'.toNat)
  else if 'A' ≤ c ∧ c ≤ 'F' then some (c.toNat - 'A'.toNat + 10)
  else if 'a' ≤ c ∧ c ≤ 'f' then some (c.toNat - 'a'.toNat + 10)
  else none

/-- The value of a sequence of digit values, most significant first. -/
def value (base : Nat) (digits : List Nat) : Nat :=
  digits.foldl (fun number digit => base * number + digit) 0

/-- A number as upper-case hexadecimal text of at least four digits. -/
def address (number : Nat) : String :=
  String.ofList (padded 16 4 number)

/-- The product of two numbers, unless it takes more than 32 bits. -/
def product? (a b : UInt32) : Option UInt32 :=
  if a.toBitVec.umulOverflow b.toBitVec then none else some (a * b)

/-- The sum of two numbers, unless it takes more than 32 bits. -/
def sum? (a b : UInt32) : Option UInt32 :=
  if a.toBitVec.uaddOverflow b.toBitVec then none else some (a + b)

/-- A number with one more digit behind it, in a base of at most sixteen. -/
def extend? (base : Nat) (number : UInt32) (c : Char) : Option UInt32 := do
  let digit ← (digitValue? c).filter (· < base)
  sum? (← product? number (UInt32.ofNat base)) (UInt32.ofNat digit)

/-- What stands behind the plus sign of a numeral, if it has one. -/
def unsigned : List Char → List Char
  | '+' :: digits => digits
  | digits => digits

/-- The number of 32 bits that a numeral spells: digits, with or without a plus sign in front. -/
def read? (base : Nat) (text : List Char) : Option UInt32 :=
  if unsigned text = [] then none else (unsigned text).foldlM (extend? base) 0

theorem product?_eq_some_iff {a b c : UInt32} : product? a b = some c ↔ a.toNat * b.toNat = c.toNat := by
  have small := c.toNat_lt
  rw [product?]
  split
  next wide =>
    simp only [BitVec.umulOverflow, UInt32.toNat_toBitVec, decide_eq_true_eq] at wide
    simp only [reduceCtorEq, false_iff]
    omega
  next fits =>
    have value : (a * b).toNat = a.toNat * b.toNat := BitVec.toNat_mul_of_not_umulOverflow fits
    rw [Option.some_inj, ← UInt32.toNat_inj, value]

theorem sum?_eq_some_iff {a b c : UInt32} : sum? a b = some c ↔ a.toNat + b.toNat = c.toNat := by
  have small := c.toNat_lt
  rw [sum?]
  split
  next wide =>
    simp only [BitVec.uaddOverflow, UInt32.toNat_toBitVec, decide_eq_true_eq] at wide
    simp only [reduceCtorEq, false_iff]
    omega
  next fits =>
    have value : (a + b).toNat = a.toNat + b.toNat := BitVec.toNat_add_of_not_uaddOverflow fits
    rw [Option.some_inj, ← UInt32.toNat_inj, value]

@[simp] theorem value_nil (base : Nat) : value base [] = 0 := rfl

theorem value_append_singleton (base : Nat) (front : List Nat) (last : Nat) :
    value base (front ++ [last]) = base * value base front + last := by
  simp [value]

@[simp] theorem value_zero_cons (base : Nat) (rest : List Nat) : value base (0 :: rest) = value base rest := by
  simp [value]

theorem length_padded (base width number : Nat) :
    (padded base width number).length = max width (digits base number).length := by
  simp [padded, List.leftpad]
  omega

end WordMachine.Numeral
