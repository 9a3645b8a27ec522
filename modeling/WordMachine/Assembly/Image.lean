import WordMachine.Assembly.Layout

/-! # Memory images of programs

Instructions are written into memory at their addresses: the three fields of the head, and then the operand.
The writing stops at the first fault, and what is written until then stays.
-/

namespace WordMachine.Assembly

/-- What writing leaves: the memory, and the fault that stopped it if there is one. -/
structure Written where
  memory : Memory
  fault : Option Fault
  deriving Repr, DecidableEq

namespace Written

/-- What an access leaves of a memory, which stays as it is if the access is refused. -/
def ofAccess (memory : Memory) : Except Memory.Fault Memory → Written
  | .ok written => ⟨written, none⟩
  | .error fault => ⟨memory, some (.memory fault)⟩

/-- Writes on unless there is a fault. -/
def andThen (written : Written) (next : Memory → Written) : Written :=
  match written.fault with
  | none => next written.memory
  | some _ => written

end Written

structure BitField where
  start : Nat
  length : Nat
  value : Nat

def writeFields (memory : Memory) : List BitField → Written
  | [] => ⟨memory, none⟩
  | field :: rest =>
      (Written.ofAccess memory (memory.setNumber field.start field.length field.value)).andThen
        (writeFields · rest)

def headFields (start : Nat) (head : Head) : List BitField :=
  [⟨start, Opcode.tagBits, head.opcode.tag⟩,
   ⟨start + Opcode.tagBits, Register.tagBits, head.register.tag⟩,
   ⟨start + Opcode.tagBits + Register.tagBits, Mode.tagBits, head.mode.tag⟩]

/-- The address of the first bit of an instruction, unless the product overflows. -/
def startBit? (address : Nat) : Option Nat :=
  if 8 * address < Memory.bitAddressBound then some (8 * address) else none

def writeData (memory : Memory) (address value : Nat) : Written :=
  if value < 256 then Written.ofAccess memory (memory.writeByte address (UInt8.ofNat value))
  else ⟨memory, some (.dataTooWide value address)⟩

def writeOperand (memory : Memory) (address value : Nat) : Written :=
  if value < UInt16.size then Written.ofAccess memory (memory.writeWord (address + 1) (UInt16.ofNat value))
  else ⟨memory, some (.operandTooWide value address)⟩

def writeFramed (memory : Memory) (address : Nat) (framing : Framing Empty) : Written :=
  if framing.opcode = .store ∧ framing.mode = .immediate then ⟨memory, some (.immediateStore address)⟩
  else
    match startBit? address with
    | none => ⟨memory, some .overflow⟩
    | some start =>
        -- The head is written before the operand is looked at, so it stays if the operand is refused.
        (writeFields memory (headFields start framing.head)).andThen fun memory =>
          match framing.argument.bind Argument.payload? with
          | some value => writeOperand memory address value
          | none => ⟨memory, none⟩

def Instruction.write (instruction : Instruction) (memory : Memory) : Written :=
  match instruction.shape, instruction.shape.framing? with
  | .data value, _ => writeData memory instruction.address value
  | _, some framing => writeFramed memory instruction.address framing
  | _, none => ⟨memory, none⟩

def writeAll : List Instruction → Memory → Written
  | [], memory => ⟨memory, none⟩
  | instruction :: rest, memory => (instruction.write memory).andThen (writeAll rest)

def writeEvents (instructions : List Instruction) (memory : Memory) : List Event :=
  match (writeAll instructions memory).fault with
  | some _ => []
  | none => [⟨.debug, eventSource,
      s!"encoded {programSize instructions} bytes into {memory.size} bytes of memory"⟩]

end WordMachine.Assembly
