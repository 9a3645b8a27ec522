import WordMachine.Proofs.Assembly.Acceptance
import WordMachine.Proofs.Assembly.Confinement

/-! # What an interrupted writing leaves

Writing instructions stops at the first one that is refused, and then memory holds the bytes of those before it.  Of
the refused instruction itself at most the head is there: all of its byte if the operand is what it is refused for,
and nothing of it otherwise.
-/

namespace WordMachine.Assembly

open Memory

/-- Memory with the bytes of instructions at their addresses, those of later ones over those of earlier ones. -/
def putInstructions (memory : Memory) (instructions : List Instruction) : Memory :=
  instructions.foldl (fun memory instruction => memory.putBytes instruction.address instruction.shape.bytes) memory

/-- For what an instruction is refused, and what is left of the memory then. -/
inductive Instruction.Refused (instruction : Instruction) (memory : Memory) : Fault → Memory → Prop where
  | dataTooWide {value : Nat} (data : instruction.shape = .data value) (wide : 256 ≤ value) :
      Refused instruction memory (.dataTooWide value instruction.address) memory
  | dataOutside {value : Nat} (data : instruction.shape = .data value) (beyond : memory.size ≤ instruction.address) :
      Refused instruction memory (outside instruction.address 8 memory.size) memory
  | immediateStore {framing : Framing Empty} (framed : instruction.shape.framing? = some framing)
      (immediate : framing.opcode = .store ∧ framing.mode = .immediate) :
      Refused instruction memory (.immediateStore instruction.address) memory
  | headOutside {framing : Framing Empty} (framed : instruction.shape.framing? = some framing)
      (beyond : memory.size ≤ instruction.address) :
      Refused instruction memory (outside instruction.address 4 memory.size) memory
  /-- The head is written before the operand is looked at. -/
  | operandTooWide {framing : Framing Empty} {value : Nat} (framed : instruction.shape.framing? = some framing)
      (payload : framing.payload? = some value) (inside : instruction.address < memory.size)
      (wide : UInt16.size ≤ value) :
      Refused instruction memory (.operandTooWide value instruction.address)
        (memory.putByte instruction.address framing.head.encode)
  | operandOutside {framing : Framing Empty} {value : Nat} (framed : instruction.shape.framing? = some framing)
      (payload : framing.payload? = some value) (inside : instruction.address < memory.size)
      (beyond : memory.size < instruction.address + 3) :
      Refused instruction memory (outside (instruction.address + 1) 16 memory.size)
        (memory.putByte instruction.address framing.head.encode)

/-- No byte but the first one of a refused instruction changes. -/
theorem Instruction.Refused.bytes_eq {instruction : Instruction} {memory left : Memory} {fault : Fault}
    (refused : instruction.Refused memory fault left) {address : Nat} (other : address ≠ instruction.address) :
    left.bytes[address]? = memory.bytes[address]? := by
  cases refused with
  | dataTooWide | dataOutside | immediateStore | headOutside => rfl
  | operandTooWide _ _ inside | operandOutside _ _ inside => rw [bytes_putByte _ _ _ _ inside, if_neg other]

section Operations

variable {memory : Memory} {address : Nat} (near : address < 2 ^ 61 - 1)

include near

theorem addressable_succ : 8 * (address + 1) < bitAddressBound :=
  addressable_of_lt (by omega)

/-- An operand is refused for its number, or else for its place, and memory stays as it is. -/
theorem writeOperand_refused {value : Nat} {fault : Fault}
    (failed : (writeOperand memory address value).fault = some fault) :
    (writeOperand memory address value).memory = memory ∧
      ((UInt16.size ≤ value ∧ fault = .operandTooWide value address) ∨
        (memory.size < address + 3 ∧ fault = outside (address + 1) 16 memory.size)) := by
  rcases Nat.lt_or_ge value UInt16.size with narrow | wide
  · rcases Nat.lt_or_ge memory.size (address + 3) with beyond | room
    · rw [writeOperand_outside narrow beyond, reportedStart_of_lt (addressable_succ near)] at failed ⊢
      cases failed
      exact ⟨rfl, .inr ⟨beyond, rfl⟩⟩
    · rw [writeOperand, if_pos narrow, writeWord_eq_ok (addressable_succ near) room] at failed
      cases failed
  · rw [writeOperand_of_le wide] at failed ⊢
    cases failed
    exact ⟨rfl, .inl ⟨wide, rfl⟩⟩

end Operations

section Instructions

variable {memory : Memory} {instruction : Instruction} (near : instruction.address < 2 ^ 61 - 1) {fault : Fault}
  (failed : (instruction.write memory).fault = some fault)

include near failed

theorem Instruction.refused_of_framing {framing : Framing Empty}
    (framed : instruction.shape.framing? = some framing) :
    instruction.Refused memory fault (instruction.write memory).memory := by
  rw [write_of_framing framed] at failed ⊢
  by_cases immediate : framing.opcode = .store ∧ framing.mode = .immediate
  · rw [writeFramed, if_pos immediate] at failed ⊢
    cases failed
    exact .immediateStore framed immediate
  have addressable : 8 * instruction.address < bitAddressBound := addressable_of_lt (by omega)
  rcases Nat.lt_or_ge instruction.address memory.size with inside | beyond
  · rw [writeFramed_inside immediate addressable inside] at failed ⊢
    cases payload : framing.payload? with
    | none =>
        rw [payload] at failed
        cases failed
    | some value =>
        simp only [payload] at failed ⊢
        obtain ⟨kept, reason⟩ := writeOperand_refused near failed
        rw [kept]
        rw [size_putByte] at reason
        rcases reason with ⟨wide, rfl⟩ | ⟨room, rfl⟩
        · exact .operandTooWide framed payload inside wide
        · exact .operandOutside framed payload inside room
  · rw [writeFramed_outside immediate addressable beyond] at failed ⊢
    cases failed
    exact .headOutside framed beyond

theorem Instruction.refused_of_data {value : Nat} (data : instruction.shape = .data value) :
    instruction.Refused memory fault (instruction.write memory).memory := by
  rw [write_of_data data, writeData] at failed ⊢
  have addressable : 8 * instruction.address < bitAddressBound := addressable_of_lt (by omega)
  rcases Nat.lt_or_ge value 256 with narrow | wide
  · rw [if_pos narrow] at failed ⊢
    rcases Nat.lt_or_ge instruction.address memory.size with inside | beyond
    · rw [writeByte_eq_ok addressable inside] at failed
      cases failed
    · rw [writeByte_eq_error addressable beyond] at failed ⊢
      cases failed
      exact .dataOutside data beyond
  · rw [if_neg (Nat.not_lt.2 wide)] at failed ⊢
    cases failed
    exact .dataTooWide data wide

theorem Instruction.refused_of_fault : instruction.Refused memory fault (instruction.write memory).memory := by
  cases framed : instruction.shape.framing? with
  | some framing => exact refused_of_framing near failed framed
  | none =>
      obtain ⟨value, data⟩ := Shape.framing?_eq_none_iff.1 framed
      exact refused_of_data near failed data

end Instructions

section Programs

variable {instructions : List Instruction} {memory : Memory}

/-- Instructions that are all written put their bytes into memory, one after the other. -/
theorem writeAll_of_success (near : ∀ instruction ∈ instructions, instruction.address < 2 ^ 61 - 1)
    (success : (writeAll instructions memory).fault = none) :
    writeAll instructions memory = ⟨putInstructions memory instructions, none⟩ := by
  induction instructions generalizing memory with
  | nil => rfl
  | cons first rest ih =>
      obtain ⟨nearFirst, nearRest⟩ := List.forall_mem_cons.1 near
      obtain ⟨goesOn, success⟩ := Written.andThen_fault_eq_none_iff.1 success
      obtain ⟨-, -, written⟩ := first.write_of_fault_eq_none (addressable_of_lt (by omega)) goesOn
      rw [writeAll, Written.andThen_of_none goesOn]
      rw [written] at success ⊢
      exact ih nearRest success

end Programs

/-- What a writing that fails leaves: the bytes that the instructions before the first refused one leave on their own,
    and nothing else but perhaps the head of the refused one.  Its byte is there as a whole if the operand is refused,
    for its number or its place, and stays what it was if the instruction is refused for anything else.  No byte of
    the operand is written, and none of any instruction behind. -/
theorem interrupted_writing_leaves_front {instructions : List Instruction} {memory : Memory} {fault : Fault}
    (near : ∀ instruction ∈ instructions, instruction.address < 2 ^ 61 - 1)
    (failed : (writeAll instructions memory).fault = some fault) :
    ∃ front instruction back, instructions = front ++ instruction :: back ∧
      writeAll front memory = ⟨putInstructions memory front, none⟩ ∧
      instruction.Refused (putInstructions memory front) fault (writeAll instructions memory).memory ∧
      ∀ address ≠ instruction.address,
        (writeAll instructions memory).memory.bytes[address]? = (putInstructions memory front).bytes[address]? := by
  obtain ⟨front, instruction, back, split, success, last⟩ := exists_first_refused failed
  have nearFront : ∀ other ∈ front, other.address < 2 ^ 61 - 1 := fun other member =>
    near other (split ▸ List.mem_append_left _ member)
  have nearLast : instruction.address < 2 ^ 61 - 1 := near instruction (split ▸ by simp)
  have written := writeAll_of_success nearFront success
  rw [last, written] at failed ⊢
  have refused := instruction.refused_of_fault nearLast failed
  exact ⟨front, instruction, back, split, written, refused, fun address => refused.bytes_eq⟩

/-- A halt that overwrites an operand, a jump over the halt whose operand ends behind four bytes, and data behind. -/
def overlapping : List Instruction :=
  [⟨[], .binary .load .r1 (.immediate 5), 0⟩, ⟨[], .nullary .halt, 2⟩, ⟨[], .unary .jump none (some (.direct 9)), 2⟩,
   ⟨[], .data 7, 0⟩]

theorem interrupted_writing_leaves_front_overlapping :
    (∀ instruction ∈ overlapping, instruction.address < 2 ^ 61 - 1) ∧
      writeAll overlapping (.zeroed 4) = ⟨.ofBytes [0x45, 0, 0x22, 0], some (outside 3 16 4)⟩ ∧
      ∃ front instruction back, overlapping = front ++ instruction :: back ∧
        writeAll front (.zeroed 4) = ⟨putInstructions (.zeroed 4) front, none⟩ ∧
        instruction.Refused (putInstructions (.zeroed 4) front) (outside 3 16 4) (.ofBytes [0x45, 0, 0x22, 0]) := by
  have near : ∀ instruction ∈ overlapping, instruction.address < 2 ^ 61 - 1 := by decide
  have written : writeAll overlapping (.zeroed 4) = ⟨.ofBytes [0x45, 0, 0x22, 0], some (outside 3 16 4)⟩ := by decide
  obtain ⟨front, instruction, back, split, success, refused, -⟩ :=
    interrupted_writing_leaves_front near (congrArg Written.fault written)
  rw [written] at refused
  exact ⟨near, written, front, instruction, back, split, success, refused⟩

end WordMachine.Assembly
