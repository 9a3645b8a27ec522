import WordMachine.Proofs.Machine.Reference

/-! # Steps refine the instruction set

A step of a machine reads the head at its counter and the operand behind it, and then does what the instruction
means in plain numbers, or is refused for one of three reasons.
-/

namespace WordMachine

namespace Reference

/-- A machine in plain numbers. -/
structure State where
  data : Data
  pc : Nat
  halted : Bool

/-- The state behind an instruction that is executed. -/
def State.after (state : State) (head : Head) (operand : Nat) : State where
  data := perform head operand state.data
  pc := if goesOn head state.data = .jump then operand else state.pc + length head.mode
  halted := goesOn head state.data = .halt

/-- A word read as a two's complement number. -/
def signed (word : Nat) : Int := if word < wordBound / 2 then word else word - wordBound

/-- The operations that keep their meaning when words are read as two's complement numbers. -/
def signedOperation? : Opcode → Option (Int → Int → Int)
  | .add => some (· + ·)
  | .subtract => some (· - ·)
  | .multiply => some (· * ·)
  | _ => none

theorem length_eq_size (head : Head) : length head.mode = head.size := by
  cases mode : head.mode <;> simp [length, Head.size, mode, Mode.instructionBytes, Mode.operandBytes]

/-- The two readings of a word differ by a multiple of the word bound. -/
theorem signed_eq_bmod {word : Nat} (bound : word < wordBound) : signed word = (word : Int).bmod wordBound := by
  unfold signed wordBound at *
  rw [Int.bmod_def]
  split <;> split <;> omega

theorem signed_perform {head : Head} {data : Data} {operand : Nat} {operation : Int → Int → Int}
    (found : signedOperation? head.opcode = some operation) (current : data.registers head.register < wordBound)
    (bound : operand < wordBound) :
    signed ((perform head operand data).registers head.register) =
      (operation (signed (data.registers head.register)) (signed operand)).bmod wordBound := by
  rw [signed_eq_bmod current, signed_eq_bmod bound]
  have positive : 0 < wordBound := by decide
  obtain ⟨opcode, register, mode⟩ := head
  cases opcode <;> cases found
  · simp only [perform, Data.assign, if_true]
    rw [signed_eq_bmod (Nat.mod_lt _ positive)]
    simp
  · simp only [perform, Data.assign, if_true]
    rw [signed_eq_bmod (Nat.mod_lt _ positive), Int.natCast_emod, Int.emod_bmod, Int.natCast_sub (by omega),
      Int.natCast_add, show ∀ a b c : Int, a + b - c = a - c + b by omega, Int.add_bmod_right]
    simp
  · simp only [perform, Data.assign, if_true]
    rw [signed_eq_bmod (Nat.mod_lt _ positive)]
    simp

end Reference

namespace Machine

open Reference

def state (machine : Machine) : State := ⟨machine.data, machine.pc.toNat, machine.halted⟩

/-- A resolved operand stands for a number: the one that the operation takes from it. -/
structure Operand.Means (operand : Operand) (head : Head) (number : Nat) : Prop where
  suits : operand.address.isSome = decide (head.mode = .direct)
  number : operand.number head.opcode = number

theorem wordAt?_eq_some_iff {bytes : List UInt8} {address word : Nat} :
    wordAt? bytes address = some word ↔ ∃ high low, bytes[address]? = some high ∧ bytes[address + 1]? = some low ∧
      256 * high.toNat + low.toNat = word := by
  simp [wordAt?, Option.bind_eq_some_iff]

theorem readWord_of_wordAt? {memory : Memory} {address word : Nat}
    (addressable : 8 * address < Memory.bitAddressBound) (found : wordAt? memory.bytes.toList address = some word) :
    memory.readWord address = .ok (UInt16.ofNat word) ∧ word < wordBound := by
  obtain ⟨high, low, first, second, rfl⟩ := wordAt?_eq_some_iff.1 found
  rw [Array.getElem?_toList] at first second
  have : high.toNat < 256 := high.toNat_lt
  have : low.toNat < 256 := low.toNat_lt
  refine ⟨Memory.readWord_eq_ok addressable first second, ?_⟩
  rw [wordBound]
  omega

theorem readWord_of_wordAt?_eq_none {memory : Memory} {address : Nat}
    (addressable : 8 * address < Memory.bitAddressBound) (absent : wordAt? memory.bytes.toList address = none) :
    memory.readWord address = .error (.outOfBounds (8 * address) 16 memory.bitSize) := by
  apply Memory.readWord_eq_error addressable
  rcases Nat.lt_or_ge memory.size (address + 2) with outside | inside
  · exact outside
  · have length : memory.bytes.toList.length = memory.size := Array.length_toList
    have present := wordAt?_eq_some_iff.2 ⟨_, _,
      List.getElem?_eq_getElem (l := memory.bytes.toList) (i := address) (by omega),
      List.getElem?_eq_getElem (l := memory.bytes.toList) (i := address + 1) (by omega), rfl⟩
    rw [absent] at present
    cases present

section Operands

variable {machine : Machine} {head : Head}

theorem operand_of_accumulator (mode : head.mode = .accumulator) :
    ∃ operand, machine.operand head = .ok operand ∧ operand.Means head (machine.data.registers .r0) := by
  refine ⟨⟨machine.register .r0, none⟩, by rw [Machine.operand, mode]; rfl, by simp [mode], ?_⟩
  simp [Operand.number, Operand.target, data]

theorem operand_of_immediate {word : UInt16} (mode : head.mode = .immediate)
    (field : machine.operandField = .ok word) :
    ∃ operand, machine.operand head = .ok operand ∧ operand.Means head word.toNat := by
  refine ⟨⟨word, none⟩, by rw [Machine.operand, mode, field]; rfl, by simp [mode], ?_⟩
  simp [Operand.number, Operand.target]

theorem operand_of_direct {address : UInt16} {number : Nat} (mode : head.mode = .direct)
    (field : machine.operandField = .ok address)
    (found : directOperand? machine.data.bytes head.opcode address.toNat = some number) :
    ∃ operand, machine.operand head = .ok operand ∧ operand.Means head number := by
  have places : usesAddressOnly head.opcode = takesPlace head.opcode := by
    cases head.opcode <;> rfl
  rw [directOperand?] at found
  cases place : takesPlace head.opcode with
  | true =>
      rw [place, if_pos rfl] at found
      cases found
      refine ⟨⟨0, some address⟩, ?_, by simp [mode], by simp [Operand.number, place, Operand.target]⟩
      simp only [Machine.operand, mode, field, places, place, if_true]
      rfl
  | false =>
      rw [place, if_neg (by simp)] at found
      obtain ⟨read, bound⟩ := readWord_of_wordAt? (Memory.addressable_word address) found
      refine ⟨⟨UInt16.ofNat number, some address⟩, ?_, by simp [mode], ?_⟩
      · simp only [Machine.operand, mode, field, bind, Except.bind, places, place, read]
        rfl
      · simp [Operand.number, place, UInt16.toNat_ofNat_of_lt' bound]

/-- A direct operand where no word stands is an access outside memory. -/
theorem operand_of_direct_eq_none {address : UInt16} (mode : head.mode = .direct)
    (field : machine.operandField = .ok address)
    (absent : directOperand? machine.data.bytes head.opcode address.toNat = none) :
    machine.operand head =
      .error (.memory (.outOfBounds (8 * address.toNat) 16 machine.memory.bitSize)) := by
  have places : usesAddressOnly head.opcode = takesPlace head.opcode := by
    cases head.opcode <;> rfl
  rw [directOperand?] at absent
  cases place : takesPlace head.opcode with
  | true => simp [place] at absent
  | false =>
      rw [place, if_neg (by simp)] at absent
      simp only [Machine.operand, mode, field, bind, Except.bind, places, place,
        readWord_of_wordAt?_eq_none (Memory.addressable_word address) absent]
      rfl

theorem step_of_operand {operand : Operand} (running : machine.halted = false) (fetched : machine.fetch = .ok head)
    (resolved : machine.operand head = .ok operand) :
    machine.step = execute (machine.jumpTo (machine.pc + UInt64.ofNat head.size)) machine.pc head operand := by
  simp [step, running, fetched, resolved]

theorem step_of_operand_error {fault : Fault} (running : machine.halted = false)
    (fetched : machine.fetch = .ok head) (refused : machine.operand head = .error fault) :
    machine.step = ⟨.error fault, machine⟩ := by
  simp [step, running, fetched, refused]

theorem toNat_behind (inside : machine.pc.toNat + 3 < 2 ^ 64) :
    (machine.pc + UInt64.ofNat head.size).toNat = machine.pc.toNat + length head.mode := by
  rw [UInt64.toNat_add, ← length_eq_size]
  cases head.mode <;> simp only [length] <;> simp <;> omega

theorem fetch_of_present {byte : UInt8} (small : machine.memory.size < 2 ^ 61)
    (present : machine.data.bytes[machine.pc.toNat]? = some byte) :
    machine.fetch = (Head.decode byte).mapError (.reserved machine.pc) := by
  obtain ⟨inside, -⟩ := List.getElem?_eq_some_iff.1 present
  have length : machine.data.bytes.length = machine.memory.size := Array.length_toList
  have read := Memory.readByte_eq_ok (Memory.addressable_of_lt (by omega))
    ((Array.getElem?_toList ..).symm.trans present)
  rw [fetch, read]
  rfl

theorem fetch_of_decode {byte : UInt8} (small : machine.memory.size < 2 ^ 61)
    (present : machine.data.bytes[machine.pc.toNat]? = some byte) (decoded : Head.decode byte = .ok head) :
    machine.fetch = .ok head := by
  rw [fetch_of_present small present, decoded]
  rfl

theorem operandField_of_wordAt? {word : Nat} (small : machine.memory.size < 2 ^ 61)
    (inside : machine.pc.toNat < machine.memory.size)
    (found : wordAt? machine.data.bytes (machine.pc.toNat + 1) = some word) :
    machine.operandField = .ok (UInt16.ofNat word) ∧ word < wordBound := by
  have behind : (machine.pc + 1).toNat = machine.pc.toNat + 1 := by
    rw [UInt64.toNat_add, UInt64.toNat_one]
    omega
  obtain ⟨read, bound⟩ := readWord_of_wordAt? (Memory.addressable_of_lt (by omega)) found
  refine ⟨?_, bound⟩
  rw [operandField, behind, read]
  rfl

/-- A machine resolves the operand that the instruction set gives an instruction. -/
theorem operand_of_operand? {number : Nat} (small : machine.memory.size < 2 ^ 61)
    (inside : machine.pc.toNat < machine.memory.size)
    (resolved : operand? machine.data machine.pc.toNat head = some number) :
    ∃ operand, machine.operand head = .ok operand ∧ operand.Means head number := by
  cases mode : head.mode with
  | accumulator =>
      rw [operand?, operandFrom?, mode] at resolved
      cases resolved
      exact operand_of_accumulator mode
  | immediate =>
      rw [operand?, operandFrom?, mode] at resolved
      obtain ⟨field, bound⟩ := operandField_of_wordAt? small inside resolved
      have found := operand_of_immediate mode field
      rwa [UInt16.toNat_ofNat_of_lt' bound] at found
  | direct =>
      rw [operand?, operandFrom?, mode] at resolved
      obtain ⟨address, found, stands⟩ := Option.bind_eq_some_iff.1 resolved
      obtain ⟨field, bound⟩ := operandField_of_wordAt? small inside found
      apply operand_of_direct mode field
      rwa [UInt16.toNat_ofNat_of_lt' bound]

/-- Only a direct operand can be missing behind a head with a field, and it is an access outside memory then. -/
theorem operand_of_operandFrom?_eq_none {field : Nat} (small : machine.memory.size < 2 ^ 61)
    (inside : machine.pc.toNat < machine.memory.size)
    (found : wordAt? machine.data.bytes (machine.pc.toNat + 1) = some field)
    (absent : operandFrom? (some field) machine.data head = none) :
    machine.operand head = .error (.memory (.outOfBounds (8 * field) 16 machine.memory.bitSize)) := by
  cases mode : head.mode with
  | direct =>
      obtain ⟨read, bound⟩ := operandField_of_wordAt? small inside found
      rw [operandFrom?, mode] at absent
      have refused := operand_of_direct_eq_none mode read
      rw [UInt16.toNat_ofNat_of_lt' bound] at refused
      exact refused absent
  | _ =>
      rw [operandFrom?, mode] at absent
      cases absent

theorem number_lt {opcode : Opcode} (operand : Operand) : operand.number opcode < wordBound := by
  rw [Operand.number, Operand.target]
  split
  · exact (operand.address.getD operand.value).toNat_lt
  · exact operand.value.toNat_lt

theorem step_of_accepted {operand : Operand} {number : Nat} (running : machine.halted = false)
    (inside : machine.pc.toNat + 3 < 2 ^ 64) (fetched : machine.fetch = .ok head)
    (found : machine.operand head = .ok operand) (means : operand.Means head number)
    (accepted : refusal? head number machine.data = none) :
    machine.step.result = .ok (.ofControl (goesOn head machine.data)) ∧
      machine.step.machine.state = machine.state.after head number := by
  obtain ⟨suits, rfl⟩ := means
  have performed : (execute (machine.jumpTo (machine.pc + UInt64.ofNat head.size)) machine.pc head operand).Performs
      (machine.jumpTo (machine.pc + UInt64.ofNat head.size)) head (operand.number head.opcode) :=
    execute_of_accepted suits accepted
  rw [step_of_operand running fetched found]
  refine ⟨performed.result, ?_⟩
  have pc := performed.pc
  rw [jumpTo, toNat_behind inside] at pc
  simp only [state, State.after, performed.data, performed.halted, State.mk.injEq]
  refine ⟨rfl, pc, ?_⟩
  simp only [jumpTo, running, Bool.false_or]
  rfl

theorem step_of_refused {operand : Operand} {number : Nat} {refusal : Refusal} (running : machine.halted = false)
    (fetched : machine.fetch = .ok head) (found : machine.operand head = .ok operand)
    (means : operand.Means head number) (refused : refusal? head number machine.data = some refusal) :
    machine.step = ⟨.error (.ofRefusal machine.pc machine.memory.size refusal),
      machine.jumpTo (machine.pc + UInt64.ofNat head.size)⟩ := by
  obtain ⟨suits, rfl⟩ := means
  rw [step_of_operand running fetched found]
  exact execute_of_refused suits refused

end Operands

/-- A step with a known operand fails for the three reasons of the instruction set, and otherwise succeeds with
    the instruction's meaning as its whole effect; sums, differences and products are also those of two's
    complement numbers. -/
theorem step_refines_reference {machine : Machine} {byte : UInt8} {head : Head} {operand : Nat}
    (running : machine.halted = false) (small : machine.memory.size < 2 ^ 61)
    (present : machine.data.bytes[machine.pc.toNat]? = some byte) (decoded : Head.decode byte = .ok head)
    (resolved : operand? machine.data machine.pc.toNat head = some operand) :
    (∀ refusal, refusal? head operand machine.data = some refusal →
      machine.step.result = .error (.ofRefusal machine.pc machine.memory.size refusal)) ∧
    (refusal? head operand machine.data = none →
      machine.step.result = .ok (.ofControl (goesOn head machine.data)) ∧
      machine.step.machine.state = machine.state.after head operand ∧
      ∀ operation, signedOperation? head.opcode = some operation →
        signed (machine.step.machine.data.registers head.register) =
          (operation (signed (machine.data.registers head.register)) (signed operand)).bmod wordBound) := by
  have inside : machine.pc.toNat < machine.memory.size := by
    obtain ⟨inside, -⟩ := List.getElem?_eq_some_iff.1 present
    exact inside
  have fetched := fetch_of_decode small present decoded
  obtain ⟨word, found, means⟩ := operand_of_operand? small inside resolved
  constructor
  · intro refusal refused
    rw [step_of_refused running fetched found means refused]
  · intro accepted
    obtain ⟨result, after⟩ := step_of_accepted running (by omega) fetched found means accepted
    refine ⟨result, after, ?_⟩
    intro operation signedOperation
    have data : machine.step.machine.data = perform head operand machine.data := congrArg State.data after
    rw [data]
    exact signed_perform signedOperation (register_lt machine head.register) (means.number ▸ number_lt word)

/-- A machine about to subtract 7, which stands in memory, from 5 in a register. -/
def borrowing : Machine :=
  ⟨.ofBytes [Head.encode ⟨.subtract, .r1, .direct⟩, 0, 3, 0, 7], ⟨0, 5, 0⟩, 0, false⟩

theorem step_refines_reference_borrowing :
    refusal? ⟨.subtract, .r1, .direct⟩ 7 borrowing.data = none ∧
      borrowing.step.machine.state = borrowing.state.after ⟨.subtract, .r1, .direct⟩ 7 ∧
      signed (borrowing.step.machine.data.registers .r1) = -2 := by
  have step := @step_refines_reference borrowing _ ⟨.subtract, .r1, .direct⟩ 7 rfl (by decide) rfl
    (Head.decode_encode _) rfl
  obtain ⟨-, after, numbers⟩ := step.2 rfl
  refine ⟨rfl, after, ?_⟩
  rw [numbers (· - ·) rfl]
  decide

end Machine

end WordMachine
