/-! # Addressing modes

How an instruction comes by its operand, and how much room the instruction takes up because of it.
-/

namespace WordMachine

/-- How an instruction comes by its operand. -/
inductive Mode where
  /-- The operand is the contents of the accumulator. -/
  | accumulator
  /-- The operand is the word behind the instruction's first byte. -/
  | immediate
  /-- The word behind the instruction's first byte is the address of the operand. -/
  | direct
  deriving Repr, DecidableEq, BEq

namespace Mode

def all : List Mode := [.accumulator, .immediate, .direct]

def tagBits : Nat := 2

def tag : Mode → Nat
  | .accumulator => 0
  | .immediate => 1
  | .direct => 2

def ofTag? (tag : Nat) : Option Mode := all[tag]?

def name : Mode → String
  | .accumulator => "accumulator"
  | .immediate => "immediate"
  | .direct => "direct"

def operandBytes : Mode → Nat
  | .accumulator => 0
  | .immediate | .direct => 2

def instructionBytes (mode : Mode) : Nat := 1 + mode.operandBytes

@[simp] theorem ofTag?_tag (mode : Mode) : ofTag? mode.tag = some mode := by
  cases mode <;> rfl

theorem tag_lt (mode : Mode) : mode.tag < 1 <<< tagBits := by
  cases mode <;> decide

theorem tag_of_ofTag? {tag : Nat} {mode : Mode} (found : ofTag? tag = some mode) : mode.tag = tag := by
  have bound : tag < all.length := (List.getElem?_eq_some_iff.1 found).1
  have cases : ∀ tag < all.length, (ofTag? tag).map Mode.tag = some tag := by decide
  simpa [found] using cases tag bound

end Mode

end WordMachine
