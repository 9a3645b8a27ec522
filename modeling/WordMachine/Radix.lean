import WordMachine.Text.Numeral

/-! # Radixes

The three radixes in which bytes are written: their names, their digits, and the reading of a digit string
as a number of at most 32 bits.
-/

namespace WordMachine

inductive Radix where
  /-- Base 2, eight digits to a byte. -/
  | binary
  /-- Base 10, three digits to a byte. -/
  | decimal
  /-- Base 16, two digits to a byte. -/
  | hexadecimal
  deriving Repr, DecidableEq, BEq

namespace Radix

inductive Error where
  /-- The digit string is empty, has a character that is no digit, or is too large a number. -/
  | invalidDigits (digits : String) (base : Nat)
  | unknown (name : String)
  deriving Repr, DecidableEq, BEq

def Error.message : Error → String
  | .invalidDigits digits base => s!"`{digits}` is not a base-{base} number"
  | .unknown name => s!"unknown radix `{name}`: expected 2, 10 or 16"

def all : List Radix := [.binary, .decimal, .hexadecimal]

def base : Radix → Nat
  | .binary => 2
  | .decimal => 10
  | .hexadecimal => 16

def digitsPerByte : Radix → Nat
  | .binary => 8
  | .decimal => 3
  | .hexadecimal => 2

def name : Radix → String
  | .binary => "binary"
  | .decimal => "decimal"
  | .hexadecimal => "hexadecimal"

/-- The radix with a given name; each has a long name, a short name and its base, in any ASCII case. -/
def ofName? (name : String) : Except Error Radix :=
  match String.ofList (name.toList.map Char.toLower) with
  | "2" | "bin" | "binary" => .ok .binary
  | "10" | "dec" | "decimal" => .ok .decimal
  | "16" | "hex" | "hexadecimal" => .ok .hexadecimal
  | _ => .error (.unknown name)

/-- The value of a character as a digit of a radix, hexadecimal digits in either case. -/
def digitValue? (radix : Radix) (c : Char) : Option Nat :=
  (Numeral.digitValue? c).filter (· < radix.base)

def isDigit (radix : Radix) (c : Char) : Bool :=
  (radix.digitValue? c).isSome

/-- The number that the digits among some characters spell. -/
def valueOf (radix : Radix) (digits : List Char) : Nat :=
  Numeral.value radix.base (digits.filterMap radix.digitValue?)

/-- A byte with all the digits that its radix may need. -/
def formatByte (radix : Radix) (byte : UInt8) : List Char :=
  Numeral.padded radix.base radix.digitsPerByte byte.toNat

/-- The number that a digit string spells.  Nothing but digits may stand in it, not even the sign of a numeral. -/
def parseDigits (radix : Radix) (digits : List Char) : Except Error Nat :=
  let invalid := .invalidDigits (String.ofList digits) radix.base
  if digits.isEmpty || !digits.all radix.isDigit then .error invalid
  else
    match Numeral.read? radix.base digits with
    | some number => .ok number.toNat
    | none => .error invalid

theorem digitsPerByte_pos (radix : Radix) : 0 < radix.digitsPerByte := by
  cases radix <;> decide

/-- The digits of a byte fill its places exactly. -/
theorem length_formatByte (radix : Radix) (byte : UInt8) :
    (radix.formatByte byte).length = radix.digitsPerByte := by
  have bound : byte.toNat < 256 := byte.toNat_lt
  rw [formatByte, Numeral.length_padded, Numeral.digits, List.length_map]
  have fits : (Nat.toDigits radix.base byte.toNat).length ≤ radix.digitsPerByte := by
    cases radix <;> rw [Nat.length_toDigits_le_iff (by decide) (by decide)] <;>
      simp only [base, digitsPerByte] <;> omega
  omega

end Radix

end WordMachine
