import WordMachine.Machine.Basic

/-! # One step of a machine

A step fetches the head of the instruction at the program counter, resolves the operand, moves the program
counter behind the instruction and executes the operation.  A step that fails before the execution leaves the
machine as it is; a failure of the execution leaves the program counter behind the instruction.
-/

namespace WordMachine.Machine

/-- An operand, once the mode is taken into account. -/
structure Operand where
  value : UInt16
  /-- The address that the instruction names, in direct mode. -/
  address : Option UInt16
  deriving Repr, DecidableEq, BEq

/-- Where a jump with this operand goes. -/
def Operand.target (operand : Operand) : UInt64 :=
  (operand.address.getD operand.value).toUInt64

/-- What an operation leaves: the outcome and the machine. -/
structure Transition where
  result : Except Fault Status
  machine : Machine

def flag (condition : Bool) : UInt16 := if condition then 1 else 0

/-- Whether an operation uses a direct operand's address only, and never the word that stands there. -/
def usesAddressOnly : Opcode → Bool
  | .jump | .jumpIfZero | .store => true
  | _ => false

def fetch (machine : Machine) : Except Fault Head := do
  let byte ← (machine.memory.readByte machine.pc.toNat).mapError .memory
  (Head.decode byte).mapError (.reserved machine.pc)

def operandField (machine : Machine) : Except Fault UInt16 :=
  (machine.memory.readWord (machine.pc + 1).toNat).mapError .memory

def operand (machine : Machine) (head : Head) : Except Fault Operand :=
  match head.mode with
  | .accumulator => .ok ⟨machine.register .accumulator, none⟩
  | .immediate => do return ⟨← machine.operandField, none⟩
  | .direct => do
      let address ← machine.operandField
      -- A jump or a store may name an address that holds no word.
      if usesAddressOnly head.opcode then return ⟨0, some address⟩
      return ⟨← (machine.memory.readWord address.toNat).mapError .memory, some address⟩

def continues (machine : Machine) : Transition := ⟨.ok .running, machine⟩

def assigns (machine : Machine) (register : Register) (word : UInt16) : Transition :=
  continues (machine.setRegister register word)

/-- Copies a word into memory at a direct operand's address, or else into the accumulator.  `origin` is the
    address of the instruction. -/
def executeStore (machine : Machine) (origin : UInt64) (mode : Mode) (operand : Operand) (word : UInt16) :
    Transition :=
  match mode, operand.address with
  | .direct, some address =>
      match machine.memory.writeWord address.toNat word with
      | .ok memory => continues { machine with memory := memory }
      | .error fault => ⟨.error (.memory fault), machine⟩
  | .immediate, _ => ⟨.error (.immediateStore origin), machine⟩
  -- In accumulator mode the word goes where operands come from.
  | _, _ => machine.assigns .accumulator word

/-- Executes the operation of an instruction at address `origin` on a machine whose program counter stands
    behind it already. -/
def execute (machine : Machine) (origin : UInt64) (head : Head) (operand : Operand) : Transition :=
  let register := head.register
  let current := machine.register register
  match head.opcode with
  | .nop => continues machine
  | .halt => ⟨.ok .halted, { machine with halted := true }⟩
  | .jump => continues (machine.jumpTo operand.target)
  | .jumpIfZero => continues (if current = 0 then machine.jumpTo operand.target else machine)
  | .load => machine.assigns register operand.value
  | .store => machine.executeStore origin head.mode operand current
  | .add => machine.assigns register (current + operand.value)
  | .subtract => machine.assigns register (current - operand.value)
  | .multiply => machine.assigns register (current * operand.value)
  | .divide =>
      if operand.value = 0 then ⟨.error (.divisionByZero origin), machine⟩
      else machine.assigns register (current / operand.value)
  | .and => machine.assigns register (flag (current = 1 && operand.value = 1))
  | .or => machine.assigns register (flag (current = 1 || operand.value = 1))
  | .not => machine.assigns register (flag (current ≠ 1))
  | .equalsZero => machine.assigns register (flag (operand.value = 0))
  | .lessThanZero => machine.assigns register (operand.value >>> 15)

/-- Executes one instruction.  A halted machine stays as it is. -/
def step (machine : Machine) : Transition :=
  if machine.halted then ⟨.ok .halted, machine⟩
  else
    match machine.fetch with
    | .error fault => ⟨.error fault, machine⟩
    | .ok head =>
        match machine.operand head with
        | .error fault => ⟨.error fault, machine⟩
        | .ok operand =>
            -- The instruction and its operand are known: whatever happens now, the counter moves on.
            execute (machine.jumpTo (machine.pc + UInt64.ofNat head.size)) machine.pc head operand

theorem step_of_halted {machine : Machine} (halted : machine.halted = true) :
    machine.step = ⟨.ok .halted, machine⟩ := by
  simp [step, halted]

theorem size_execute (machine : Machine) (origin : UInt64) (head : Head) (operand : Operand) :
    (machine.execute origin head operand).machine.memory.size = machine.memory.size := by
  have written : ∀ {address word memory}, machine.memory.writeWord address word = .ok memory →
      memory.size = machine.memory.size := by
    intro address word memory stored
    simp only [Memory.writeWord, Memory.setNumber, Memory.bitAddress, Memory.checkRange, bind, Except.bind,
      pure, Except.pure] at stored
    grind [Memory.size_writeBits]
  obtain ⟨opcode, register, mode⟩ := head
  cases opcode <;> simp only [execute, executeStore, continues, assigns, setRegister, jumpTo]
  case store => grind
  all_goals split <;> rfl

end WordMachine.Machine
