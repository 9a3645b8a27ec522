import WordMachine.Machine.Step
import WordMachine.Proofs.Memory.Bytes

/-! # The instruction set in plain numbers

What each operation means, said on a list of bytes and on registers that are numbers: which operand an
instruction works on, when it is refused, what it does to the data, and how the program goes on.
`execute_of_accepted` and `execute_of_refused` tie the execution of an instruction to that meaning.
-/

namespace WordMachine

namespace Reference

def wordBound : Nat := 2 ^ 16

/-- What a program computes on: memory as its bytes, and the contents of the registers. -/
structure Data where
  bytes : List UInt8
  registers : Register → Nat

/-- How a program goes on behind an instruction. -/
inductive Control where
  | next
  | jump
  | halt
  deriving Repr, DecidableEq

/-- Why an instruction with a known operand is not executed. -/
inductive Refusal where
  | immediateStore
  | divisionByZero
  /-- No word can be stored at the address. -/
  | storeOutside (address : Nat)
  deriving Repr, DecidableEq

/-- The word at an address, which is two bytes, the more significant one first. -/
def wordAt? (bytes : List UInt8) (address : Nat) : Option Nat := do
  let high ← bytes[address]?
  let low ← bytes[address + 1]?
  return 256 * high.toNat + low.toNat

def putWord (bytes : List UInt8) (address word : Nat) : List UInt8 :=
  (bytes.set address (UInt8.ofNat (word / 256))).set (address + 1) (UInt8.ofNat word)

def Data.assign (data : Data) (register : Register) (word : Nat) : Data :=
  { data with registers := fun other => if other = register then word else data.registers other }

def length : Mode → Nat
  | .accumulator => 1
  | .immediate | .direct => 3

/-- Whether an operation takes a direct operand as a place and not as the word that stands there. -/
def takesPlace : Opcode → Bool
  | .jump | .jumpIfZero | .store => true
  | _ => false

/-- The number that a direct operand stands for. -/
def directOperand? (bytes : List UInt8) (opcode : Opcode) (address : Nat) : Option Nat :=
  if takesPlace opcode then some address else wordAt? bytes address

/-- The number that an instruction works on; `field` is what stands behind its head. -/
def operandFrom? (field : Option Nat) (data : Data) (head : Head) : Option Nat :=
  match head.mode with
  | .accumulator => some (data.registers .r0)
  | .immediate => field
  | .direct => field.bind (directOperand? data.bytes head.opcode)

/-- The number that the instruction at an address works on. -/
def operand? (data : Data) (pc : Nat) (head : Head) : Option Nat :=
  operandFrom? (wordAt? data.bytes (pc + 1)) data head

def refusal? (head : Head) (operand : Nat) (data : Data) : Option Refusal :=
  match head.opcode, head.mode with
  | .store, .immediate => some .immediateStore
  | .store, .direct => if operand + 2 ≤ data.bytes.length then none else some (.storeOutside operand)
  | .divide, _ => if operand = 0 then some .divisionByZero else none
  | _, _ => none

def truth (condition : Bool) : Nat := if condition then 1 else 0

def perform (head : Head) (operand : Nat) (data : Data) : Data :=
  let current := data.registers head.register
  match head.opcode with
  | .nop | .halt | .jump | .jumpIfZero => data
  | .load => data.assign head.register operand
  | .store =>
      match head.mode with
      | .direct => { data with bytes := putWord data.bytes operand current }
      | _ => data.assign .r0 current
  | .add => data.assign head.register ((current + operand) % wordBound)
  | .subtract => data.assign head.register ((current + wordBound - operand) % wordBound)
  | .multiply => data.assign head.register (current * operand % wordBound)
  | .divide => data.assign head.register (current / operand)
  | .and => data.assign head.register (truth (current = 1 && operand = 1))
  | .or => data.assign head.register (truth (current = 1 || operand = 1))
  | .not => data.assign head.register (truth (current ≠ 1))
  | .equalsZero => data.assign head.register (truth (operand = 0))
  | .lessThanZero => data.assign head.register (truth (wordBound / 2 ≤ operand))

def goesOn (head : Head) (data : Data) : Control :=
  match head.opcode with
  | .halt => .halt
  | .jump => .jump
  | .jumpIfZero => if data.registers head.register = 0 then .jump else .next
  | _ => .next

theorem length_perform (head : Head) (operand : Nat) (data : Data) :
    (perform head operand data).bytes.length = data.bytes.length := by
  obtain ⟨opcode, register, mode⟩ := head
  cases opcode with
  | store => cases mode <;> simp [perform, Data.assign, putWord]
  | _ => rfl

/-- Memory changes only where a word is stored. -/
theorem bytes_perform_outside {head : Head} {operand : Nat} {data : Data} {index : Nat}
    (outside : head.opcode = .store → head.mode = .direct → index < operand ∨ operand + 2 ≤ index) :
    (perform head operand data).bytes[index]? = data.bytes[index]? := by
  obtain ⟨opcode, register, mode⟩ := head
  cases opcode with
  | store =>
      cases mode with
      | direct =>
          have apart := outside rfl rfl
          simp only [perform, putWord]
          rw [List.getElem?_set_ne (by omega), List.getElem?_set_ne (by omega)]
      | _ => rfl
  | _ => rfl

end Reference

namespace Machine

open Reference

def data (machine : Machine) : Data :=
  ⟨machine.memory.bytes.toList, fun register => (machine.register register).toNat⟩

def Status.ofControl : Control → Status
  | .halt => .halted
  | .next | .jump => .running

/-- The fault that a machine reports for an instruction at `pc`. -/
def Fault.ofRefusal (pc : UInt64) (size : Nat) : Refusal → Fault
  | .immediateStore => .immediateStore pc
  | .divisionByZero => .divisionByZero pc
  | .storeOutside address => .memory (.outOfBounds (8 * address) 16 (8 * size))

/-- The number that an operation takes from its operand. -/
def Operand.number (operand : Operand) (opcode : Opcode) : Nat :=
  if takesPlace opcode then operand.target.toNat else operand.value.toNat

theorem data_setRegister (machine : Machine) (register : Register) (word : UInt16) :
    (machine.setRegister register word).data = machine.data.assign register word.toNat := by
  simp only [data, Data.assign, setRegister, Machine.register, RegisterFile.get_set]
  congr 1
  funext other
  split <;> rfl

theorem register_lt (machine : Machine) (register : Register) :
    machine.data.registers register < wordBound :=
  (machine.register register).toNat_lt

theorem data_putBytes_word (memory : Memory) (address word : Nat) :
    (memory.putBytes address (Memory.wordBytes word)).bytes.toList = putWord memory.bytes.toList address word := by
  simp [Memory.putBytes, Memory.wordBytes, Memory.putByte, putWord]

theorem toNat_flag (condition : Bool) : (flag condition).toNat = truth condition := by
  cases condition <;> rfl

theorem toNat_signBit (word : UInt16) : (word >>> 15).toNat = truth (wordBound / 2 ≤ word.toNat) := by
  have bound : word.toNat < 65536 := word.toNat_lt
  have shifted : (word >>> 15).toNat = word.toNat / 32768 := by
    rw [UInt16.toNat_shiftRight, Nat.shiftRight_eq_div_pow]
    rfl
  rw [shifted, wordBound, truth]
  split
  · next negative =>
    have : 32768 ≤ word.toNat := of_decide_eq_true negative
    omega
  · next positive =>
    have : ¬ 32768 ≤ word.toNat := fun negative => positive (decide_eq_true negative)
    omega

theorem toNat_eq_zero_iff (word : UInt16) : word.toNat = 0 ↔ word = 0 := by
  rw [← UInt16.toNat_inj]
  rfl

theorem toNat_eq_one_iff (word : UInt16) : word.toNat = 1 ↔ word = 1 := by
  rw [← UInt16.toNat_inj]
  rfl

/-- The execution of an instruction on `before` has its meaning as its effect; the counter stands behind the
    instruction already. -/
structure Transition.Performs (transition : Transition) (before : Machine) (head : Head) (operand : Nat) :
    Prop where
  result : transition.result = .ok (.ofControl (goesOn head before.data))
  data : transition.machine.data = perform head operand before.data
  halted : transition.machine.halted = (before.halted || goesOn head before.data = .halt)
  pc : transition.machine.pc.toNat = if goesOn head before.data = .jump then operand else before.pc.toNat

section Execution

variable {machine : Machine} {head : Head} {operand : Nat}

theorem performs_continues (straight : goesOn head machine.data = .next)
    (effect : perform head operand machine.data = machine.data) :
    (continues machine).Performs machine head operand where
  result := by rw [straight]; rfl
  data := effect.symm
  halted := by rw [straight]; simp [continues]
  pc := by rw [straight]; rfl

theorem performs_jumpTo {target : UInt64} (turns : goesOn head machine.data = .jump)
    (effect : perform head operand machine.data = machine.data) (reached : target.toNat = operand) :
    (continues (machine.jumpTo target)).Performs machine head operand where
  result := by rw [turns]; rfl
  data := effect.symm
  halted := by rw [turns]; simp [continues, jumpTo]
  pc := by rw [turns]; exact reached

theorem performs_assigns {register : Register} {word : UInt16} (straight : goesOn head machine.data = .next)
    (effect : perform head operand machine.data = machine.data.assign register word.toNat) :
    (machine.assigns register word).Performs machine head operand where
  result := by rw [straight]; rfl
  data := by rw [effect, ← data_setRegister]; rfl
  halted := by rw [straight]; simp [assigns, continues, setRegister]
  pc := by rw [straight]; rfl

end Execution

theorem performs_store {machine : Machine} {register : Register} {origin : UInt64} {operand : Operand}
    {address : UInt16} (named : operand.address = some address)
    (accepted : refusal? ⟨.store, register, .direct⟩ address.toNat machine.data = none) :
    (machine.executeStore origin .direct operand (machine.register register)).Performs machine
      ⟨.store, register, .direct⟩ address.toNat := by
  have inside : address.toNat + 2 ≤ machine.memory.size := by
    simp only [refusal?] at accepted
    split at accepted
    · next inside => exact inside
    · cases accepted
  simp only [executeStore, named, Memory.writeWord_eq_ok (Memory.addressable_word address) inside]
  refine ⟨rfl, ?_, by simp [continues, goesOn], rfl⟩
  simp only [continues, perform, data, data_putBytes_word]
  rfl

/-- An instruction that is not refused has its meaning as its effect. -/
theorem execute_of_accepted {machine : Machine} {origin : UInt64} {head : Head} {operand : Operand}
    (suits : operand.address.isSome = decide (head.mode = .direct))
    (accepted : refusal? head (operand.number head.opcode) machine.data = none) :
    (machine.execute origin head operand).Performs machine head (operand.number head.opcode) := by
  obtain ⟨opcode, register, mode⟩ := head
  have assigned : ∀ {left right : Nat}, left = right →
      machine.data.assign register left = machine.data.assign register right := fun same => same ▸ rfl
  cases opcode with
  | nop => exact performs_continues rfl rfl
  | halt => exact ⟨rfl, rfl, by simp [execute, goesOn], rfl⟩
  | jump => exact performs_jumpTo rfl rfl rfl
  | jumpIfZero =>
      simp only [execute]
      by_cases zero : machine.register register = 0
      · rw [if_pos zero]
        exact performs_jumpTo (if_pos ((toNat_eq_zero_iff _).2 zero)) rfl rfl
      · rw [if_neg zero]
        exact performs_continues (if_neg (mt (toNat_eq_zero_iff _).1 zero)) rfl
  | load => exact performs_assigns rfl rfl
  | store =>
      cases mode with
      | accumulator => exact performs_assigns rfl rfl
      | immediate => simp [refusal?] at accepted
      | direct =>
          obtain ⟨address, named⟩ := Option.isSome_iff_exists.1 (suits.trans (by simp))
          have place : operand.number .store = address.toNat := by
            simp [Operand.number, takesPlace, Operand.target, named]
          simp only [place] at accepted ⊢
          exact performs_store named accepted
  | add => exact performs_assigns rfl (assigned (UInt16.toNat_add _ _).symm)
  | subtract =>
      refine performs_assigns rfl (assigned ?_)
      have := register_lt machine register
      have := operand.value.toNat_lt
      rw [UInt16.toNat_sub]
      simp only [Operand.number, takesPlace, data, wordBound] at *
      congr 1
      simp
      omega
  | multiply => exact performs_assigns rfl (assigned (UInt16.toNat_mul _ _).symm)
  | divide =>
      have nonzero : operand.value ≠ 0 := by
        simpa [refusal?, Operand.number, takesPlace, toNat_eq_zero_iff] using accepted
      simp only [execute, if_neg nonzero]
      exact performs_assigns rfl (assigned (UInt16.toNat_div _ _).symm)
  | and =>
      refine performs_assigns rfl (assigned ?_)
      simp [toNat_flag, data, Operand.number, takesPlace, toNat_eq_one_iff]
  | or =>
      refine performs_assigns rfl (assigned ?_)
      simp [toNat_flag, data, Operand.number, takesPlace, toNat_eq_one_iff]
  | not =>
      refine performs_assigns rfl (assigned ?_)
      simp [toNat_flag, data, toNat_eq_one_iff]
  | equalsZero =>
      refine performs_assigns rfl (assigned ?_)
      simp [toNat_flag, Operand.number, takesPlace, toNat_eq_zero_iff]
  | lessThanZero => exact performs_assigns rfl (assigned (toNat_signBit _).symm)

/-- An instruction that is refused changes nothing but the counter, which has moved on already. -/
theorem execute_of_refused {machine : Machine} {origin : UInt64} {head : Head} {operand : Operand}
    {refusal : Refusal} (suits : operand.address.isSome = decide (head.mode = .direct))
    (refused : refusal? head (operand.number head.opcode) machine.data = some refusal) :
    machine.execute origin head operand =
      ⟨.error (.ofRefusal origin machine.memory.size refusal), machine⟩ := by
  obtain ⟨opcode, register, mode⟩ := head
  cases opcode with
  | store =>
      cases mode with
      | accumulator => simp [refusal?] at refused
      | immediate =>
          cases refused
          rfl
      | direct =>
          obtain ⟨address, named⟩ := Option.isSome_iff_exists.1 (suits.trans (by simp))
          have place : operand.number .store = address.toNat := by
            simp [Operand.number, takesPlace, Operand.target, named]
          simp only [place, refusal?] at refused
          split at refused
          · cases refused
          next outside =>
          cases refused
          have beyond : machine.memory.size < address.toNat + 2 := Nat.lt_of_not_le outside
          simp only [execute, executeStore, named, Memory.writeWord_eq_error (Memory.addressable_word address) beyond]
          rfl
  | divide =>
      simp only [refusal?] at refused
      split at refused
      · next zero =>
        cases refused
        have zero : operand.value = 0 := (toNat_eq_zero_iff _).1 zero
        simp only [execute, if_pos zero]
        rfl
      · cases refused
  | _ => cases refused

end Machine

end WordMachine
