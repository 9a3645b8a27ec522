/-! # Operations

The fifteen operations of the machine with their four-bit tags and their mnemonics.
-/

namespace WordMachine

inductive Opcode where
  | nop
  | halt
  /-- Continues at the operand. -/
  | jump
  /-- Continues at the operand if the register is zero. -/
  | jumpIfZero
  | load
  /-- Copies the register into the accumulator or into memory. -/
  | store
  | add
  | subtract
  | multiply
  | divide
  | and
  | or
  | not
  | equalsZero
  /-- Whether the operand is negative as a two's complement number. -/
  | lessThanZero
  deriving Repr, DecidableEq, BEq

namespace Opcode

def all : List Opcode :=
  [.nop, .halt, .jump, .jumpIfZero, .load, .store, .add, .subtract, .multiply, .divide, .and, .or, .not,
   .equalsZero, .lessThanZero]

def tagBits : Nat := 4

def tag : Opcode → Nat
  | .nop => 0
  | .halt => 1
  | .jump => 2
  | .jumpIfZero => 3
  | .load => 4
  | .store => 5
  | .add => 6
  | .subtract => 7
  | .multiply => 8
  | .divide => 9
  | .and => 10
  | .or => 11
  | .not => 12
  | .equalsZero => 13
  | .lessThanZero => 14

def ofTag? (tag : Nat) : Option Opcode := all[tag]?

def mnemonic : Opcode → String
  | .nop => "nop"
  | .halt => "halt"
  | .jump => "jmp"
  | .jumpIfZero => "jmz"
  | .load => "load"
  | .store => "store"
  | .add => "add"
  | .subtract => "sub"
  | .multiply => "mul"
  | .divide => "div"
  | .and => "and"
  | .or => "or"
  | .not => "not"
  | .equalsZero => "cpz"
  | .lessThanZero => "cpl"

@[simp] theorem ofTag?_tag (opcode : Opcode) : ofTag? opcode.tag = some opcode := by
  cases opcode <;> rfl

theorem tag_lt (opcode : Opcode) : opcode.tag < 1 <<< tagBits := by
  cases opcode <;> decide

theorem tag_of_ofTag? {tag : Nat} {opcode : Opcode} (found : ofTag? tag = some opcode) :
    opcode.tag = tag := by
  have bound : tag < all.length := (List.getElem?_eq_some_iff.1 found).1
  have cases : ∀ tag < all.length, (ofTag? tag).map Opcode.tag = some tag := by decide
  simpa [found] using cases tag bound

end Opcode

end WordMachine
