import WordMachine.Instruction.Head
import WordMachine.Memory.Encoding

/-! # Machines

The state of a machine that executes its memory in place: program and data share one address space.  The
program counter is 64 bits wide and may stand anywhere, also outside memory.
-/

namespace WordMachine

structure Machine where
  memory : Memory
  registers : RegisterFile
  /-- The address of the instruction to be executed next. -/
  pc : UInt64
  halted : Bool
  deriving Repr, DecidableEq, BEq

namespace Machine

/-- Why a machine cannot execute an instruction or does not come to its end. -/
inductive Fault where
  | reserved (pc : UInt64) (field : Head.Reserved)
  | immediateStore (pc : UInt64)
  | divisionByZero (pc : UInt64)
  | stepBudgetExhausted (steps : Nat)
  | memory (fault : Memory.Fault)
  deriving Repr, DecidableEq, BEq

def Fault.message : Fault → String
  | .reserved pc field => s!"{field.message} @ {pc}"
  | .immediateStore pc => s!"store @ {pc} uses invalid immediate addressing mode"
  | .divisionByZero pc => s!"division by zero @ {pc}"
  | .stepBudgetExhausted steps => s!"no halt within {steps} steps"
  | .memory fault => fault.message

/-- The text of a fault, and then that of the error beneath it where the fault adds words of its own. -/
def Fault.messages (fault : Fault) : List String :=
  match fault with
  | .reserved _ field => [fault.message, field.message]
  | .memory inner => inner.messages
  | _ => [fault.message]

inductive Status where
  | running
  | halted
  deriving Repr, DecidableEq, BEq

/-- A machine that is about to execute memory from address 0 on. -/
def ofMemory (memory : Memory) : Machine := ⟨memory, .zero, 0, false⟩

/-- The machine whose memory a text in some encoding stands for. -/
def ofText (codec : Base64Url.Codec) (encoding : Encoding) (text : String) : Except Fault Machine :=
  (Memory.ofText codec encoding text).mapError .memory |>.map ofMemory

def register (machine : Machine) (register : Register) : UInt16 :=
  machine.registers.get register

def setRegister (machine : Machine) (register : Register) (word : UInt16) : Machine :=
  { machine with registers := machine.registers.set register word }

/-- Moves the program counter; a halted machine stays halted. -/
def jumpTo (machine : Machine) (pc : UInt64) : Machine :=
  { machine with pc := pc }

end Machine

end WordMachine
