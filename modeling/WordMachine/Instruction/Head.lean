import WordMachine.Instruction.Mode
import WordMachine.Instruction.Opcode
import WordMachine.Instruction.Register
import WordMachine.Text.Numeral

/-! # The first byte of an instruction

An instruction starts with a byte of three fields, most significant first: four bits for the operation, two
for the register, two for the mode.  A tag that names nothing is reserved.

`decode_encode` and `encode_of_decode` say that heads and the bytes without reserved fields correspond.
-/

namespace WordMachine

structure Head where
  opcode : Opcode
  register : Register
  mode : Mode
  deriving Repr, DecidableEq, BEq

namespace Head

/-- A field of a byte that names nothing. -/
inductive Reserved where
  | opcode (tag : Nat)
  | register (tag : Nat)
  | mode (tag : Nat)
  deriving Repr, DecidableEq, BEq

def Reserved.message : Reserved → String
  | .opcode tag => String.ofList (Numeral.padded 2 Opcode.tagBits tag) ++ " is a non-existent instruction code"
  | .register tag => String.ofList (Numeral.padded 2 Register.tagBits tag) ++ " is a non-existent register"
  | .mode tag => String.ofList (Numeral.padded 2 Mode.tagBits tag) ++ " is a non-existent addressing mode"

def lowMask (bits : Nat) : Nat := (1 <<< bits) - 1

def encode (head : Head) : UInt8 :=
  UInt8.ofNat (((head.opcode.tag <<< Register.tagBits) + head.register.tag) <<< Mode.tagBits + head.mode.tag)

/-- Takes what a tag names, or reports the field. -/
def field {α : Type} (named? : Option α) (reserved : Reserved) : Except Reserved α :=
  match named? with
  | some named => .ok named
  | none => .error reserved

/-- The head that a byte spells, or the first of its reserved fields. -/
def decode (byte : UInt8) : Except Reserved Head := do
  let opcodeTag := byte.toNat >>> (Register.tagBits + Mode.tagBits)
  let registerTag := byte.toNat >>> Mode.tagBits % (1 <<< Register.tagBits)
  let modeTag := byte.toNat % (1 <<< Mode.tagBits)
  let opcode ← field (Opcode.ofTag? opcodeTag) (.opcode opcodeTag)
  let register ← field (Register.ofTag? registerTag) (.register registerTag)
  let mode ← field (Mode.ofTag? modeTag) (.mode modeTag)
  return ⟨opcode, register, mode⟩

def size (head : Head) : Nat := head.mode.instructionBytes

def text (head : Head) : String :=
  s!"{head.opcode.mnemonic} {head.register.name} ({head.mode.name})"

theorem decode_encode (head : Head) : decode head.encode = .ok head := by
  obtain ⟨opcode, register, mode⟩ := head
  cases opcode <;> cases register <;> cases mode <;> rfl

theorem field_eq_ok_iff {α : Type} {named? : Option α} {reserved : Reserved} {named : α} :
    field named? reserved = .ok named ↔ named? = some named := by
  cases named? <;> simp [field]

theorem encode_of_decode {byte : UInt8} {head : Head} (decoded : decode byte = .ok head) :
    head.encode = byte := by
  simp only [decode, bind, Except.bind, pure, Except.pure] at decoded
  split at decoded
  · simp at decoded
  next opcode opcodeFound =>
  split at decoded
  · simp at decoded
  next register registerFound =>
  split at decoded
  · simp at decoded
  next mode modeFound =>
  simp only [Except.ok.injEq] at decoded
  subst decoded
  -- What is left is arithmetic: quotients and remainders put together again.
  apply UInt8.toNat_inj.1
  have bound : byte.toNat < 256 := byte.toNat_lt
  simp only [encode, Opcode.tag_of_ofTag? (field_eq_ok_iff.1 opcodeFound),
    Register.tag_of_ofTag? (field_eq_ok_iff.1 registerFound), Mode.tag_of_ofTag? (field_eq_ok_iff.1 modeFound),
    Register.tagBits, Mode.tagBits, Nat.one_shiftLeft, UInt8.toNat_ofNat']
  omega

end Head

end WordMachine
