import WordMachine.Proofs.Assembly.Image

/-! # Where instructions are written

An instruction at an address of its own choice changes no byte outside its range, and is not written if the range
does not lie in memory.  It is refused for that, with one exception: the bit address of a head is computed without
regard to its size, so an operation beyond all bit addresses ends in an overflow where a fault should be reported.
-/

namespace WordMachine.Assembly

open Memory

/-- An operation whose bit address overflows.  An immediate store is refused before. -/
def Instruction.overflows (instruction : Instruction) : Bool :=
  match instruction.shape.framing? with
  | some framing => ¬ (framing.opcode = .store ∧ framing.mode = .immediate) ∧ 2 ^ 61 ≤ instruction.address
  | none => false

/-- An instruction whose turn comes when instructions are written: those in front of it are not refused. -/
def Reached (memory : Memory) (instructions : List Instruction) (instruction : Instruction) : Prop :=
  ∃ front back, instructions = front ++ instruction :: back ∧ (writeAll front memory).fault = none

/-- What instructions are written to, whatever their addresses are. -/
structure Kept (memory : Memory) (instructions : List Instruction) : Prop where
  inside : (writeAll instructions memory).fault = none →
    ∀ instruction ∈ instructions, instruction.next ≤ memory.size
  /-- A byte that changes belongs to an instruction, also if the writing stops with a fault. -/
  changed : ∀ address, (writeAll instructions memory).memory.bytes[address]? ≠ memory.bytes[address]? →
    ∃ instruction ∈ instructions, instruction.address ≤ address ∧ address < instruction.next
  size : (writeAll instructions memory).memory.size = memory.size

/-- Instructions are written to their own bytes, and what does not lie in memory is refused for that. -/
structure Confined (memory : Memory) (instructions : List Instruction) : Prop extends Kept memory instructions where
  refused : ∀ instruction, Reached memory instructions instruction → instruction.Encodable →
    memory.size < instruction.next →
    ∃ start length, (writeAll instructions memory).fault = some (.memory (.outOfBounds start length memory.bitSize))

theorem writeAll_append (front back : List Instruction) (memory : Memory) :
    writeAll (front ++ back) memory = (writeAll front memory).andThen (writeAll back) := by
  induction front generalizing memory with
  | nil => rfl
  | cons first front ih =>
      rw [List.cons_append, writeAll, writeAll]
      cases stopped : (first.write memory).fault with
      | some fault =>
          rw [Written.andThen_of_some stopped, Written.andThen_of_some stopped, Written.andThen_of_some stopped]
      | none => rw [Written.andThen_of_none stopped, Written.andThen_of_none stopped, ih]

/-- A writing ends at an instruction that is refused when its turn comes. -/
theorem writeAll_of_refused {front back : List Instruction} {instruction : Instruction} {memory : Memory}
    {fault : Fault} (success : (writeAll front memory).fault = none)
    (refused : (instruction.write (writeAll front memory).memory).fault = some fault) :
    writeAll (front ++ instruction :: back) memory = instruction.write (writeAll front memory).memory := by
  rw [writeAll_append, Written.andThen_of_none success, writeAll, Written.andThen_of_some refused]

/-- A writing that fails has a first instruction that is refused, and it ends there. -/
theorem exists_first_refused {instructions : List Instruction} {memory : Memory} {fault : Fault}
    (failed : (writeAll instructions memory).fault = some fault) :
    ∃ front instruction back, instructions = front ++ instruction :: back ∧ (writeAll front memory).fault = none ∧
      writeAll instructions memory = instruction.write (writeAll front memory).memory := by
  induction instructions generalizing memory with
  | nil => cases failed
  | cons first rest ih =>
      cases stopped : (first.write memory).fault with
      | some other => exact ⟨[], first, rest, rfl, rfl, Written.andThen_of_some stopped (writeAll rest)⟩
      | none =>
          rw [writeAll, Written.andThen_of_none stopped] at failed
          obtain ⟨front, instruction, back, split, success, last⟩ := ih failed
          have goesOn : ∀ others, writeAll (first :: others) memory = writeAll others (first.write memory).memory :=
            fun others => by rw [writeAll, Written.andThen_of_none stopped]
          refine ⟨first :: front, instruction, back, by rw [split, List.cons_append], ?_, ?_⟩
          · rwa [goesOn]
          · rw [goesOn, goesOn, last]

/-- What writing an instruction does to a memory. -/
structure Instruction.Stands (instruction : Instruction) (memory : Memory) : Prop where
  kept : AgreeOutside instruction.address instruction.next memory (instruction.write memory).memory
  inside : (instruction.write memory).fault = none → instruction.next ≤ memory.size
  refused : instruction.overflows = false → instruction.Encodable → memory.size < instruction.next →
    ∃ start length, (instruction.write memory).fault = some (.memory (.outOfBounds start length memory.bitSize))
  overflow : (instruction.write memory).fault = some .overflow ↔ instruction.overflows = true

section Operations

variable {memory : Memory} {address value : Nat}

theorem writeOperand_of_lt (narrow : value < UInt16.size) (small : memory.size < 2 ^ 61)
    (inside : address + 3 ≤ memory.size) :
    writeOperand memory address value = ⟨memory.putBytes (address + 1) (wordBytes value), none⟩ := by
  rw [writeOperand, if_pos narrow, writeWord_eq_ok (addressable_of_lt (by omega)) inside,
    UInt16.toNat_ofNat_of_lt' narrow]
  rfl

theorem writeOperand_outside (narrow : value < UInt16.size) (outside : memory.size < address + 3) :
    writeOperand memory address value =
      ⟨memory, some (.memory (.outOfBounds (reportedStart (address + 1)) 16 memory.bitSize))⟩ := by
  rw [writeOperand, if_pos narrow, writeWord_outside outside]
  rfl

theorem writeOperand_of_le (wide : UInt16.size ≤ value) :
    writeOperand memory address value = ⟨memory, some (.operandTooWide value address)⟩ := by
  rw [writeOperand, if_neg (Nat.not_lt.2 wide)]

end Operations

section Instructions

variable {memory : Memory} {instruction : Instruction} {framing : Framing Empty}

theorem Instruction.next_of_framing (framed : instruction.shape.framing? = some framing) :
    instruction.next = instruction.address + 1 + (operandBytes framing.payload?).length := by
  rw [next, Instruction.size, Shape.size_of_framing framed, ← framing.length_bytes, Framing.bytes, List.length_cons]
  omega

theorem Instruction.overflows_iff (framed : instruction.shape.framing? = some framing)
    (storable : ¬ (framing.opcode = .store ∧ framing.mode = .immediate)) :
    instruction.overflows = true ↔ 2 ^ 61 ≤ instruction.address := by
  simp only [overflows, framed, decide_eq_true_eq]
  exact and_iff_right storable

theorem Instruction.address_of_overflows (overflows : instruction.overflows = true) :
    2 ^ 61 ≤ instruction.address := by
  unfold Instruction.overflows at overflows
  split at overflows
  · exact (of_decide_eq_true overflows).2
  · cases overflows

/-- An instruction that is written. -/
theorem Instruction.stands_of_written {after : Memory} (written : instruction.write memory = ⟨after, none⟩)
    (kept : AgreeOutside instruction.address instruction.next memory after) (inside : instruction.next ≤ memory.size)
    (near : instruction.overflows = false) : instruction.Stands memory where
  kept := by rwa [written]
  inside _ := inside
  refused _ _ outside := absurd inside (Nat.not_le.2 outside)
  overflow := by simp [written, near]

/-- An instruction that is refused. -/
theorem Instruction.stands_of_refused {after : Memory} {fault : Fault}
    (written : instruction.write memory = ⟨after, some fault⟩)
    (kept : AgreeOutside instruction.address instruction.next memory after)
    (place : instruction.overflows = false → instruction.Encodable →
      ∃ start length, fault = .memory (.outOfBounds start length memory.bitSize))
    (overflow : fault = .overflow ↔ instruction.overflows = true) : instruction.Stands memory where
  kept := by rwa [written]
  inside success := by rw [written] at success; cases success
  refused near encodable _ := by
    obtain ⟨start, length, same⟩ := place near encodable
    exact ⟨start, length, by rw [written, same]⟩
  overflow := by rw [written, Option.some.injEq, overflow]

/-- An operation whose head lies in memory.  It may be refused for its operand, and then the head stays. -/
theorem Instruction.stands_of_inside (small : memory.size < 2 ^ 61)
    (framed : instruction.shape.framing? = some framing)
    (storable : ¬ (framing.opcode = .store ∧ framing.mode = .immediate))
    (inside : instruction.address < memory.size) : instruction.Stands memory := by
  have next := next_of_framing framed
  have written := writeFramed_inside storable (addressable_of_lt (Nat.lt_trans inside small)) inside
  rw [← write_of_framing framed] at written
  have size := size_putByte memory instruction.address framing.head.encode
  have head : AgreeOutside instruction.address instruction.next memory
      (memory.putByte instruction.address framing.head.encode) :=
    .putByte (Nat.le_refl _) (by omega) inside _
  have near : instruction.overflows = false := by
    rw [Bool.eq_false_iff, Ne, overflows_iff framed storable]
    omega
  cases payload : framing.payload? with
  | none =>
      simp only [payload] at written
      simp only [payload, operandBytes, List.length_nil] at next
      exact stands_of_written written head (by omega) near
  | some value =>
      simp only [payload] at written
      simp only [payload, operandBytes, length_wordBytes] at next
      rcases Nat.lt_or_ge value UInt16.size with narrow | wide
      · rcases Nat.lt_or_ge memory.size (instruction.address + 3) with outside | room
        · rw [writeOperand_outside narrow (by rwa [size]), bitSize, size, ← bitSize] at written
          exact stands_of_refused written head (fun _ _ => ⟨_, _, rfl⟩) (by simp [near])
        · rw [writeOperand_of_lt narrow (by rwa [size]) (by rwa [size])] at written
          refine stands_of_written written (head.trans (.putBytes (by omega) ?_ ?_)) (by omega) near
          · rw [length_wordBytes]
            omega
          · rw [length_wordBytes, size]
            omega
      · rw [writeOperand_of_le wide] at written
        refine stands_of_refused written head (fun _ encodable => ?_) (by simp [near])
        have narrow := (encodable.framed framing framed).narrow value payload
        omega

theorem Instruction.stands_of_framing (small : memory.size < 2 ^ 61)
    (framed : instruction.shape.framing? = some framing) : instruction.Stands memory := by
  have written := write_of_framing framed memory
  by_cases immediate : framing.opcode = .store ∧ framing.mode = .immediate
  · rw [writeFramed, if_pos immediate] at written
    refine stands_of_refused written (.refl _ _ _) (fun _ encodable => ?_) ?_
    · exact absurd immediate (encodable.framed framing framed).storable
    · simp [overflows, framed, immediate]
  have overflows := overflows_iff framed immediate
  rcases Nat.lt_or_ge instruction.address memory.size with inside | outside
  · exact stands_of_inside small framed immediate inside
  rcases Nat.lt_or_ge instruction.address (2 ^ 61) with near | far
  · rw [writeFramed_outside immediate (addressable_of_lt near) outside] at written
    refine stands_of_refused written (.refl _ _ _) (fun _ _ => ⟨_, _, rfl⟩) (iff_of_false (by simp) ?_)
    rw [overflows]
    omega
  · have overflow : startBit? instruction.address = none := by
      rw [startBit?, if_neg]
      rw [bitAddressBound, UInt64.size]
      omega
    rw [writeFramed, if_neg immediate, overflow] at written
    refine stands_of_refused written (.refl _ _ _) (fun placed => ?_) (iff_of_true rfl (overflows.2 far))
    rw [overflows.2 far] at placed
    cases placed

theorem Instruction.stands_of_data {value : Nat} (small : memory.size < 2 ^ 61)
    (isData : instruction.shape = .data value) : instruction.Stands memory := by
  have written := write_of_data isData memory
  have next : instruction.next = instruction.address + 1 := by
    rw [next, Instruction.size, isData]
    rfl
  have near : instruction.overflows = false := by
    rw [overflows, isData]
    rfl
  rcases Nat.lt_or_ge value 256 with narrow | wide
  · rw [writeData, if_pos narrow] at written
    rcases Nat.lt_or_ge instruction.address memory.size with inside | outside
    · rw [writeByte_eq_ok (addressable_of_lt (by omega)) inside] at written
      exact stands_of_written written (.putByte (Nat.le_refl _) (by omega) inside _) (by omega) near
    · rw [writeByte_outside outside] at written
      exact stands_of_refused written (.refl _ _ _) (fun _ _ => ⟨_, _, rfl⟩) (by simp [near])
  · rw [writeData, if_neg (Nat.not_lt.2 wide)] at written
    refine stands_of_refused written (.refl _ _ _) (fun _ encodable => ?_) (by simp [near])
    have narrow := encodable.data value isData
    omega

theorem Instruction.stands (small : memory.size < 2 ^ 61) (instruction : Instruction) :
    instruction.Stands memory := by
  cases framed : instruction.shape.framing? with
  | some framing => exact stands_of_framing small framed
  | none =>
      obtain ⟨value, isData⟩ := Shape.framing?_eq_none_iff.1 framed
      exact stands_of_data small isData

end Instructions

section Programs

variable {memory : Memory}

theorem writeAll_stands (small : memory.size < 2 ^ 61) (instructions : List Instruction) :
    (writeAll instructions memory).memory.size = memory.size ∧
      ∀ address, (∀ instruction ∈ instructions, address < instruction.address ∨ instruction.next ≤ address) →
        (writeAll instructions memory).memory.bytes[address]? = memory.bytes[address]? := by
  induction instructions generalizing memory with
  | nil => exact ⟨rfl, fun _ _ => rfl⟩
  | cons first rest ih =>
      have kept := (first.stands small).kept
      rw [writeAll]
      cases stopped : (first.write memory).fault with
      | some fault =>
          rw [Written.andThen_of_some stopped]
          exact ⟨kept.size, fun address apart => kept.bytes address (apart first List.mem_cons_self)⟩
      | none =>
          rw [Written.andThen_of_none stopped]
          obtain ⟨size, bytes⟩ := @ih (first.write memory).memory (by rwa [kept.size])
          refine ⟨size.trans kept.size, fun address apart => ?_⟩
          rw [bytes address fun instruction member => apart instruction (List.mem_cons_of_mem _ member)]
          exact kept.bytes address (apart first List.mem_cons_self)

theorem next_le_of_writeAll (small : memory.size < 2 ^ 61) {instructions : List Instruction}
    (success : (writeAll instructions memory).fault = none) :
    ∀ instruction ∈ instructions, instruction.next ≤ memory.size := by
  induction instructions generalizing memory with
  | nil => simp
  | cons first rest ih =>
      have stands := first.stands small
      obtain ⟨goesOn, success⟩ := Written.andThen_fault_eq_none_iff.1 success
      have others := @ih (first.write memory).memory (by rwa [stands.kept.size]) success
      rw [stands.kept.size] at others
      exact List.forall_mem_cons.2 ⟨stands.inside goesOn, others⟩

theorem kept_writeAll (small : memory.size < 2 ^ 61) (instructions : List Instruction) : Kept memory instructions where
  inside := next_le_of_writeAll small
  changed address different := by
    by_contra apart
    refine different ((writeAll_stands small instructions).2 address fun instruction member => ?_)
    by_contra within
    exact apart ⟨instruction, member, by omega, by omega⟩
  size := (writeAll_stands small instructions).1

/-- An instruction stands in the memory that it is written to when its turn comes. -/
theorem stands_of_turn (small : memory.size < 2 ^ 61) (front : List Instruction) (instruction : Instruction) :
    instruction.Stands (writeAll front memory).memory :=
  instruction.stands (by rwa [(kept_writeAll small front).size])

/-- A writing overflows at an instruction that does. -/
theorem overflow_iff (small : memory.size < 2 ^ 61) (instructions : List Instruction) :
    (writeAll instructions memory).fault = some .overflow ↔
      ∃ instruction, Reached memory instructions instruction ∧ instruction.overflows = true := by
  constructor
  · intro failed
    obtain ⟨front, instruction, back, split, success, last⟩ := exists_first_refused failed
    rw [last] at failed
    exact ⟨instruction, ⟨front, back, split, success⟩, (stands_of_turn small front instruction).overflow.1 failed⟩
  · rintro ⟨instruction, ⟨front, back, rfl, success⟩, overflows⟩
    have failed := (stands_of_turn small front instruction).overflow.2 overflows
    rw [writeAll_of_refused success failed, failed]

/-- What does not lie in memory and does not overflow is refused for its place. -/
theorem refused_of_reached (small : memory.size < 2 ^ 61) {instructions : List Instruction}
    {instruction : Instruction} (reached : Reached memory instructions instruction)
    (encodable : instruction.Encodable) (near : instruction.overflows = false)
    (outside : memory.size < instruction.next) :
    ∃ start length,
      (writeAll instructions memory).fault = some (.memory (.outOfBounds start length memory.bitSize)) := by
  obtain ⟨front, back, rfl, success⟩ := reached
  have size := (kept_writeAll small front).size
  obtain ⟨start, length, failed⟩ :=
    (stands_of_turn small front instruction).refused near encodable (by rwa [size])
  refine ⟨start, length, ?_⟩
  rw [writeAll_of_refused success failed, failed, bitSize, size, ← bitSize]

end Programs

/-- Instructions are written to their own bytes, whatever their addresses are.  What does not lie in memory is refused
    for that, exactly if no operation with an encoding overflows when its turn comes; and all work ends in an overflow
    exactly if an operation overflows when its turn comes. -/
theorem confined_iff_none_overflows {memory : Memory} (small : memory.size < 2 ^ 61)
    (instructions : List Instruction) :
    Kept memory instructions ∧
      (Confined memory instructions ↔ ∀ instruction, Reached memory instructions instruction →
        instruction.Encodable → instruction.overflows = false) ∧
      ((writeAll instructions memory).fault = some .overflow ↔
        ∃ instruction, Reached memory instructions instruction ∧ instruction.overflows = true) := by
  refine ⟨kept_writeAll small instructions, ⟨fun confined instruction reached encodable => ?_, fun near => ?_⟩,
    overflow_iff small instructions⟩
  · rw [Bool.eq_false_iff]
    intro overflows
    have far := Instruction.address_of_overflows overflows
    have outside : memory.size < instruction.next := by
      rw [Instruction.next]
      omega
    obtain ⟨start, length, failed⟩ := confined.refused instruction reached encodable outside
    rw [(overflow_iff small instructions).2 ⟨instruction, reached, overflows⟩] at failed
    cases failed
  · exact ⟨kept_writeAll small instructions, fun instruction reached encodable =>
      refused_of_reached small reached encodable (near instruction reached encodable)⟩

/-- Instructions that overlap, that end behind a memory of four bytes, and that stand far outside it. -/
def scattered : List Instruction :=
  [⟨[], .binary .load .r1 (.immediate 5), 0⟩, ⟨[], .nullary .halt, 2⟩, ⟨[], .unary .jump none (some (.direct 9)), 2⟩,
   ⟨[], .data 7, 2 ^ 64 - 1⟩, ⟨[], .nullary .halt, 2 ^ 61 + 4⟩]

/-- The jump is refused for its place before the last halt overflows. -/
theorem confined_iff_none_overflows_scattered :
    (Memory.zeroed 4).size < 2 ^ 61 ∧ Confined (.zeroed 4) scattered ∧
      writeAll scattered (.zeroed 4) = ⟨.ofBytes [0x45, 0, 0x22, 0], some (.memory (.outOfBounds 24 16 32))⟩ := by
  have small : (Memory.zeroed 4).size < 2 ^ 61 := by decide
  have written : writeAll scattered (.zeroed 4) =
      ⟨.ofBytes [0x45, 0, 0x22, 0], some (.memory (.outOfBounds 24 16 32))⟩ := by decide
  obtain ⟨-, confined, overflow⟩ := confined_iff_none_overflows small scattered
  refine ⟨small, confined.2 fun instruction reached _ => ?_, written⟩
  rw [Bool.eq_false_iff]
  intro overflows
  have failed := overflow.2 ⟨instruction, reached, overflows⟩
  rw [written] at failed
  cases failed

/-- A halt whose bits have no addresses is not refused for its place. -/
theorem halt_overflows : writeAll [⟨[], .nullary .halt, 2 ^ 61⟩] (.zeroed 1) = ⟨.zeroed 1, some .overflow⟩ ∧
    ¬ Confined (.zeroed 1) [⟨[], .nullary .halt, 2 ^ 61⟩] := by
  have written : writeAll [⟨[], .nullary .halt, 2 ^ 61⟩] (.zeroed 1) = ⟨.zeroed 1, some .overflow⟩ := by decide
  refine ⟨written, fun confined => ?_⟩
  have encodable : Instruction.Encodable ⟨[], .nullary .halt, 2 ^ 61⟩ :=
    ⟨by rintro framing ⟨⟩; exact ⟨by decide, nofun⟩, nofun⟩
  obtain ⟨start, length, failed⟩ := confined.refused _ ⟨[], [], rfl, rfl⟩ encodable (by decide)
  rw [written] at failed
  cases failed

end WordMachine.Assembly
