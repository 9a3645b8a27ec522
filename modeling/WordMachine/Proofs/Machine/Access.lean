import WordMachine.Proofs.Except
import WordMachine.Proofs.Machine.Refinement

/-! # What a step accesses

A step reads the byte of its head, the operand field if there is one, and the word that a direct operand names if that
word is used; only a direct store writes.  Each of these ranges lies in memory, or the step is refused for it.
-/

namespace WordMachine.Machine

/-- Some bytes that are accessed at once. -/
structure Access where
  address : Nat
  size : Nat
  deriving Repr, DecidableEq

namespace Access

def byte (address : Nat) : Access := ⟨address, 1⟩

def word (address : Nat) : Access := ⟨address, 2⟩

def addresses (access : Access) : List Nat := List.range' access.address access.size

def Inside (access : Access) (memory : Memory) : Prop := access.address + access.size ≤ memory.size

/-- What is reported for an access outside memory.  The address of its first bit is the last one there is if it has
    none. -/
def refusal (access : Access) (memory : Memory) : Fault :=
  .memory (.outOfBounds (Memory.reportedStart access.address) (8 * access.size) memory.bitSize)

/-- The bit addresses of an access, from that of its first bit to that of the end, are the same in 64 bits as in
    unbounded numbers. -/
def Exact (access : Access) : Prop :=
  ∀ offset ≤ 8 * access.size,
    (UInt64.ofNat access.address * 8 + UInt64.ofNat offset).toNat = 8 * access.address + offset

instance (access : Access) (memory : Memory) : Decidable (access.Inside memory) :=
  inferInstanceAs (Decidable (_ ≤ _))

theorem mem_addresses {access : Access} {address : Nat} :
    address ∈ access.addresses ↔ access.address ≤ address ∧ address < access.address + access.size :=
  List.mem_range'_1

theorem forall_addresses_word {address : Nat} {property : Nat → Prop} :
    (∀ target ∈ (word address).addresses, property target) ↔ property address ∧ property (address + 1) := by
  simp [addresses, word, List.range']

theorem exact_of_inside {access : Access} {memory : Memory} (small : memory.size < 2 ^ 61)
    (inside : access.Inside memory) : access.Exact := by
  intro offset bound
  rw [Inside] at inside
  rw [UInt64.toNat_add, UInt64.toNat_mul, UInt64.toNat_ofNat', UInt64.toNat_ofNat']
  simp only [UInt64.reduceToNat]
  omega

end Access

def addressesOf (accesses : List Access) : List Nat := accesses.flatMap Access.addresses

theorem forall_addressesOf_cons {access : Access} {accesses : List Access} {property : Nat → Prop} :
    (∀ address ∈ addressesOf (access :: accesses), property address) ↔
      (∀ address ∈ access.addresses, property address) ∧ ∀ address ∈ addressesOf accesses, property address := by
  rw [addressesOf, List.flatMap_cons, List.forall_mem_append]
  rfl

/-- The operand field of an instruction, and the word that a direct operand names if that word is used. -/
def operandReads (machine : Machine) (head : Head) : List Access :=
  match head.mode with
  | .accumulator => []
  | .immediate => [.word (machine.pc + 1).toNat]
  | .direct =>
      .word (machine.pc + 1).toNat ::
        match machine.operandField with
        | .ok address => if usesAddressOnly head.opcode then [] else [.word address.toNat]
        | .error _ => []

/-- What the next step reads, up to the first access that is refused. -/
def reads (machine : Machine) : List Access :=
  if machine.halted then []
  else
    .byte machine.pc.toNat ::
      match machine.fetch with
      | .ok head => machine.operandReads head
      | .error _ => []

/-- What an operation writes: the word of a direct store. -/
def Operand.writes (operand : Operand) (head : Head) : List Access :=
  match head.opcode, head.mode, operand.address with
  | .store, .direct, some address => [.word address.toNat]
  | _, _, _ => []

/-- What the next step writes, or is refused to write. -/
def writes (machine : Machine) : List Access :=
  if machine.halted then []
  else
    match machine.fetch with
    | .ok head =>
        match machine.operand head with
        | .ok operand => operand.writes head
        | .error _ => []
    | .error _ => []

/-- The next step executes an instruction with this head and this operand. -/
structure Executes (machine : Machine) (head : Head) (operand : Operand) : Prop where
  running : machine.halted = false
  fetched : machine.fetch = .ok head
  resolved : machine.operand head = .ok operand

variable {machine : Machine} {head : Head} {operand : Operand}

section Executing

/-- A running machine of which the step succeeds executes an instruction. -/
theorem exists_executes {status : Status} (running : machine.halted = false)
    (success : machine.step.result = .ok status) : ∃ head operand, machine.Executes head operand := by
  cases fetched : machine.fetch with
  | error fault => simp [step, running, fetched] at success
  | ok head =>
      cases resolved : machine.operand head with
      | error fault => simp [step, running, fetched, resolved] at success
      | ok operand => exact ⟨head, operand, running, fetched, resolved⟩

namespace Executes

variable (executes : machine.Executes head operand)

include executes

theorem step_eq :
    machine.step = (machine.jumpTo (machine.pc + UInt64.ofNat head.size)).execute machine.pc head operand :=
  step_of_operand executes.running executes.fetched executes.resolved

theorem reads_eq : machine.reads = .byte machine.pc.toNat :: machine.operandReads head := by
  simp [reads, executes.running, executes.fetched]

theorem writes_eq : machine.writes = operand.writes head := by
  simp [writes, executes.running, executes.fetched, executes.resolved]

end Executes

/-- Only a direct store writes. -/
theorem Operand.mem_writes_iff {access : Access} : access ∈ operand.writes head ↔
    ∃ address : UInt16, (head.opcode = .store ∧ head.mode = .direct) ∧ operand.address = some address ∧
      access = .word address.toNat := by
  unfold Operand.writes
  split
  · next opcode mode named => simp [opcode, mode, named]
  · next others =>
      refine ⟨fun member => absurd member List.not_mem_nil, ?_⟩
      rintro ⟨address, ⟨opcode, mode⟩, named, -⟩
      exact absurd named (others address opcode mode)

/-- A step that writes executes an instruction, even if it is refused. -/
theorem executes_of_mem_writes {access : Access} (member : access ∈ machine.writes) :
    ∃ head operand, machine.Executes head operand ∧ access ∈ operand.writes head := by
  unfold writes at member
  split at member
  · cases member
  · next running =>
      rw [Bool.not_eq_true] at running
      split at member
      · next head fetched =>
          split at member
          · next operand resolved => exact ⟨head, operand, ⟨running, fetched, resolved⟩, member⟩
          · cases member
      · cases member

end Executing

section Refusals

variable {access : Access} {memory : Memory} {address : Nat}

theorem readWord_refused (outside : ¬ (Access.word address).Inside memory) :
    (memory.readWord address).mapError Fault.memory = .error ((Access.word address).refusal memory) := by
  have beyond : memory.size < address + 2 := Nat.lt_of_not_le outside
  rw [Memory.readWord_outside beyond]
  rfl

theorem operandField_refused (outside : ¬ (Access.word (machine.pc + 1).toNat).Inside machine.memory) :
    machine.operandField = .error ((Access.word (machine.pc + 1).toNat).refusal machine.memory) :=
  readWord_refused outside

theorem operand_of_field_error {fault : Fault} (long : head.mode ≠ .accumulator)
    (failed : machine.operandField = .error fault) : machine.operand head = .error fault := by
  cases mode : head.mode with
  | accumulator => exact absurd mode long
  | immediate | direct =>
      rw [operand, mode, failed]
      rfl

theorem fetch_refused (outside : ¬ (Access.byte machine.pc.toNat).Inside machine.memory) :
    machine.fetch = .error ((Access.byte machine.pc.toNat).refusal machine.memory) := by
  have beyond : machine.memory.size ≤ machine.pc.toNat := Nat.le_of_lt_succ (Nat.lt_of_not_le outside)
  rw [fetch, Memory.readByte_outside beyond]
  rfl

theorem operandRead_inside_or_refused (member : access ∈ machine.operandReads head) :
    access.Inside machine.memory ∨ machine.operand head = .error (access.refusal machine.memory) := by
  by_cases inside : access.Inside machine.memory
  · exact .inl inside
  refine .inr ?_
  cases mode : head.mode with
  | accumulator => simp [operandReads, mode] at member
  | immediate =>
      simp only [operandReads, mode, List.mem_singleton] at member
      subst member
      exact operand_of_field_error (by simp [mode]) (operandField_refused inside)
  | direct =>
      simp only [operandReads, mode, List.mem_cons] at member
      rcases member with rfl | member
      · exact operand_of_field_error (by simp [mode]) (operandField_refused inside)
      · cases field : machine.operandField with
        | error fault => simp [field] at member
        | ok address =>
            cases place : usesAddressOnly head.opcode with
            | true => simp [field, place] at member
            | false =>
                simp only [field, place, Bool.false_eq_true, if_false, List.mem_singleton] at member
                subst member
                simp only [operand, mode, field, bind, Except.bind, place, Bool.false_eq_true, if_false,
                  readWord_refused inside]

/-- Each range that a step reads lies in memory, or the step is refused for it. -/
theorem read_inside_or_refused (member : access ∈ machine.reads) :
    access.Inside machine.memory ∨ machine.step.result = .error (access.refusal machine.memory) := by
  cases running : machine.halted with
  | true => simp [reads, running] at member
  | false =>
      simp only [reads, running, Bool.false_eq_true, if_false, List.mem_cons] at member
      rcases member with rfl | member
      · by_cases inside : (Access.byte machine.pc.toNat).Inside machine.memory
        · exact .inl inside
        · exact .inr (by simp [step, running, fetch_refused inside])
      · cases fetched : machine.fetch with
        | error fault => simp [fetched] at member
        | ok head =>
            simp only [fetched] at member
            rcases operandRead_inside_or_refused member with inside | refused
            · exact .inl inside
            · exact .inr (by rw [step_of_operand_error running fetched refused])

/-- Each range that a step writes lies in memory, or the step is refused for it. -/
theorem write_inside_or_refused (member : access ∈ machine.writes) :
    access.Inside machine.memory ∨ machine.step.result = .error (access.refusal machine.memory) := by
  by_cases inside : access.Inside machine.memory
  · exact .inl inside
  refine .inr ?_
  obtain ⟨head, operand, executes, member⟩ := executes_of_mem_writes member
  obtain ⟨address, ⟨opcode, mode⟩, named, rfl⟩ := Operand.mem_writes_iff.1 member
  have beyond : machine.memory.size < address.toNat + 2 := Nat.lt_of_not_le inside
  rw [executes.step_eq]
  simp only [execute, opcode, executeStore, mode, named, jumpTo, Memory.writeWord_outside beyond]
  rfl

/-- What a step reads lies in memory if the step succeeds. -/
theorem reads_inside {status : Status} (success : machine.step.result = .ok status) (member : access ∈ machine.reads) :
    access.Inside machine.memory := by
  rcases read_inside_or_refused member with inside | refused
  · exact inside
  · rw [success] at refused
    cases refused

end Refusals

end WordMachine.Machine
