import WordMachine.Assembly.Program
import WordMachine.Proofs.Assembly.Image
import WordMachine.Proofs.Assembly.Resolution

/-! # Which programs are assembled

Every instruction has to pass some checks, in a fixed order, and writing stops with the fault of the first check
that fails.  So a text is assembled if it can be read, its labels can be resolved and all checks are passed, and
otherwise the fault is that of the first of these.
-/

namespace WordMachine.Assembly

open Memory

/-- Something that has to hold of an instruction, and what is reported if it is the first that does not. -/
structure Check where
  passed : Bool
  fault : Fault

/-- The range of `length` bits from the start of a byte does not lie in a memory of `size` bytes. -/
def outside (address length size : Nat) : Fault := .memory (.outOfBounds (8 * address) length (8 * size))

def dataChecks (value address size : Nat) : List Check :=
  [⟨value ≤ 255, .dataTooWide value address⟩,
   ⟨address < size, outside address 8 size⟩]

def operandChecks (value address size : Nat) : List Check :=
  [⟨value ≤ 65535, .operandTooWide value address⟩,
   ⟨address + 3 ≤ size, outside (address + 1) 16 size⟩]

/-- The checks of an operation: its mode, the place of its head, and then its operand. -/
def Framing.checks (framing : Framing Empty) (address size : Nat) : List Check :=
  ⟨¬ (framing.opcode = .store ∧ framing.mode = .immediate), .immediateStore address⟩ ::
    ⟨address < size, outside address 4 size⟩ ::
      match framing.payload? with
      | some value => operandChecks value address size
      | none => []

/-- The checks of an instruction for a memory of `size` bytes, in their order. -/
def Instruction.checks (size : Nat) (instruction : Instruction) : List Check :=
  match instruction.shape, instruction.shape.framing? with
  | .data value, _ => dataChecks value instruction.address size
  | _, some framing => framing.checks instruction.address size
  | _, none => []

/-- The checks of a program, in program order. -/
def checksOf (size : Nat) (instructions : List Instruction) : List Check := instructions.flatMap (·.checks size)

/-- The fault of the first check that fails. -/
def firstFailure? (checks : List Check) : Option Fault := (checks.find? (!·.passed)).map Check.fault

theorem firstFailure?_cons (check : Check) (rest : List Check) :
    firstFailure? (check :: rest) = if check.passed then firstFailure? rest else some check.fault := by
  cases passed : check.passed <;> simp [firstFailure?, passed]

theorem firstFailure?_eq_none_iff {checks : List Check} :
    firstFailure? checks = none ↔ ∀ check ∈ checks, check.passed := by
  simp [firstFailure?]

theorem firstFailure?_append (front back : List Check) :
    firstFailure? (front ++ back) = (firstFailure? front).or (firstFailure? back) := by
  rw [firstFailure?, List.find?_append, Option.map_or]
  rfl

theorem Instruction.checks_of_framing {instruction : Instruction} {framing : Framing Empty}
    (framed : instruction.shape.framing? = some framing) (size : Nat) :
    instruction.checks size = framing.checks instruction.address size := by
  obtain ⟨labels, shape, address⟩ := instruction
  cases shape with
  | data value => cases framed
  | _ => simp only [checks, framed]

section Passing

variable {size : Nat}

theorem dataChecks_passed_iff (value address : Nat) :
    firstFailure? (dataChecks value address size) = none ↔ value < 256 ∧ address < size := by
  simp [firstFailure?_eq_none_iff, dataChecks, Nat.lt_succ_iff]

/-- The checks of an operation are passed if it has an encoding and lies in memory. -/
theorem Framing.checks_passed_iff (framing : Framing Empty) (address : Nat) :
    firstFailure? (framing.checks address size) = none ↔
      framing.Encodable ∧ address + framing.head.size ≤ size := by
  rw [← framing.length_bytes, bytes, firstFailure?_eq_none_iff, checks]
  cases payload : framing.payload? with
  | none =>
      simp only [List.forall_mem_cons, List.not_mem_nil, decide_eq_true_eq, operandBytes, List.length_singleton]
      constructor
      · rintro ⟨storable, inside, -⟩
        exact ⟨⟨storable, by simp [payload]⟩, inside⟩
      · rintro ⟨encodable, inside⟩
        exact ⟨encodable.storable, inside, by simp⟩
  | some value =>
      simp only [operandChecks, List.forall_mem_cons, List.not_mem_nil, decide_eq_true_eq, operandBytes, wordBytes,
        List.length_cons, List.length_nil]
      constructor
      · rintro ⟨storable, -, narrow, room, -⟩
        refine ⟨⟨storable, ?_⟩, room⟩
        intro other found
        cases payload.symm.trans found
        exact Nat.lt_succ_of_le narrow
      · rintro ⟨encodable, room⟩
        exact ⟨encodable.storable, by omega, Nat.le_of_lt_succ (encodable.narrow value payload), room, by simp⟩

theorem Instruction.checks_passed_iff (instruction : Instruction) :
    firstFailure? (instruction.checks size) = none ↔ instruction.Encodable ∧ instruction.next ≤ size := by
  rw [next, Instruction.size]
  cases framed : instruction.shape.framing? with
  | some framing =>
      rw [checks_of_framing framed, framing.checks_passed_iff, Shape.size_of_framing framed]
      constructor
      · rintro ⟨encodable, inside⟩
        refine ⟨⟨?_, ?_⟩, inside⟩
        · intro other found
          cases framed.symm.trans found
          exact encodable
        · intro value isData
          rw [isData] at framed
          cases framed
      · rintro ⟨encodable, inside⟩
        exact ⟨encodable.framed framing framed, inside⟩
  | none =>
      obtain ⟨value, isData⟩ := Shape.framing?_eq_none_iff.1 framed
      obtain ⟨labels, shape, address⟩ := instruction
      cases isData
      rw [checks, dataChecks_passed_iff]
      constructor
      · rintro ⟨narrow, inside⟩
        refine ⟨⟨by simp [framed], ?_⟩, inside⟩
        rintro other ⟨⟩
        exact narrow
      · rintro ⟨encodable, inside⟩
        exact ⟨encodable.data value rfl, inside⟩

/-- The checks of a program are passed if all instructions have an encoding and the program lies in memory. -/
theorem checksOf_passed_iff {instructions : List Instruction}
    (tiles : Tiles 0 (programSize instructions) instructions) :
    firstFailure? (checksOf size instructions) = none ↔
      (∀ instruction ∈ instructions, instruction.Encodable) ∧ programSize instructions ≤ size := by
  have each : firstFailure? (checksOf size instructions) = none ↔
      ∀ instruction ∈ instructions, instruction.Encodable ∧ instruction.next ≤ size := by
    simp only [← Instruction.checks_passed_iff, firstFailure?_eq_none_iff, checksOf, List.forall_mem_flatMap]
  rw [each]
  constructor
  · intro all
    refine ⟨fun instruction member => (all instruction member).1, ?_⟩
    rw [programSize]
    split
    next last found => exact (all last (List.mem_of_getLast? found)).2
    next => exact Nat.zero_le size
  · rintro ⟨encodable, inside⟩ instruction member
    exact ⟨encodable instruction member, Nat.le_trans (tiles.bounds member).2 inside⟩

/-- An instruction that lies in memory passes the checks of its place. -/
theorem Instruction.passed_of_next_le {instruction : Instruction} (inside : instruction.next ≤ size)
    {check : Check} (member : check ∈ instruction.checks size) {fault : Memory.Fault}
    (place : check.fault = .memory fault) : check.passed := by
  rw [next, Instruction.size] at inside
  cases framed : instruction.shape.framing? with
  | some framing =>
      rw [Shape.size_of_framing framed, ← framing.length_bytes, Framing.bytes, List.length_cons] at inside
      rw [checks_of_framing framed, Framing.checks, List.mem_cons, List.mem_cons] at member
      rcases member with rfl | rfl | operand
      · cases place
      · exact decide_eq_true (by omega)
      · cases payload : framing.payload? with
        | none => simp [payload] at operand
        | some value =>
            simp only [payload, operandChecks, List.mem_cons, List.not_mem_nil, or_false] at operand
            rcases operand with rfl | rfl
            · cases place
            · rw [payload] at inside
              exact decide_eq_true inside
  | none =>
      obtain ⟨value, isData⟩ := Shape.framing?_eq_none_iff.1 framed
      obtain ⟨labels, shape, address⟩ := instruction
      cases isData
      simp only [checks, dataChecks, List.mem_cons, List.not_mem_nil, or_false] at member
      rcases member with rfl | rfl
      · cases place
      · exact decide_eq_true inside

theorem firstFailure?_ne_memory {instructions : List Instruction}
    (tiles : Tiles 0 (programSize instructions) instructions) (fits : programSize instructions ≤ size)
    (fault : Memory.Fault) : firstFailure? (checksOf size instructions) ≠ some (.memory fault) := by
  intro failed
  obtain ⟨check, found, place⟩ := Option.map_eq_some_iff.1 failed
  obtain ⟨instruction, member, checked⟩ := List.mem_flatMap.1 (List.mem_of_find?_eq_some found)
  have passed := instruction.passed_of_next_le (Nat.le_trans (tiles.bounds member).2 fits) checked place
  simpa [passed] using List.find?_some found

/-- No check is about the width of a bit address. -/
theorem Instruction.fault_ne_overflow {instruction : Instruction} {check : Check}
    (checked : check ∈ instruction.checks size) : check.fault ≠ .overflow := by
  cases framed : instruction.shape.framing? with
  | none =>
      obtain ⟨value, isData⟩ := Shape.framing?_eq_none_iff.1 framed
      obtain ⟨labels, shape, address⟩ := instruction
      cases isData
      simp only [checks, dataChecks, List.mem_cons, List.not_mem_nil, or_false] at checked
      rcases checked with rfl | rfl <;> nofun
  | some framing =>
      rw [checks_of_framing framed, Framing.checks, List.mem_cons, List.mem_cons] at checked
      rcases checked with rfl | rfl | operand
      · nofun
      · nofun
      cases payload : framing.payload? with
      | none => simp [payload] at operand
      | some value =>
          simp only [payload, operandChecks, List.mem_cons, List.not_mem_nil, or_false] at operand
          rcases operand with rfl | rfl <;> nofun

theorem firstFailure?_ne_overflow (instructions : List Instruction) :
    firstFailure? (checksOf size instructions) ≠ some .overflow := by
  intro failed
  obtain ⟨check, found, overflow⟩ := Option.map_eq_some_iff.1 failed
  obtain ⟨instruction, -, checked⟩ := List.mem_flatMap.1 (List.mem_of_find?_eq_some found)
  exact Instruction.fault_ne_overflow checked overflow

end Passing

section Small

variable {memory : Memory} {address : Nat} (small : memory.size < 2 ^ 61)

include small

theorem addressable_of_le (below : address ≤ memory.size) : 8 * address < bitAddressBound :=
  addressable_of_lt (Nat.lt_of_le_of_lt below small)

theorem writeData_fault (below : address ≤ memory.size) (value : Nat) :
    (writeData memory address value).fault = firstFailure? (dataChecks value address memory.size) := by
  have addressable := addressable_of_le small below
  by_cases narrow : value ≤ 255
  · rw [writeData, if_pos (Nat.lt_succ_of_le narrow)]
    rcases Nat.lt_or_ge address memory.size with inside | beyond
    · rw [writeByte_eq_ok addressable inside]
      simp [dataChecks, firstFailure?, Written.ofAccess, narrow, inside]
    · rw [writeByte_eq_error addressable beyond]
      simp [dataChecks, firstFailure?, Written.ofAccess, narrow, beyond, outside, bitSize]
  · rw [writeData, if_neg (fun below => narrow (Nat.le_of_lt_succ below))]
    simp [dataChecks, firstFailure?, narrow]

theorem writeOperand_fault (inside : address < memory.size) (value : Nat) :
    (writeOperand memory address value).fault = firstFailure? (operandChecks value address memory.size) := by
  have addressable : 8 * (address + 1) < bitAddressBound := addressable_of_le small inside
  by_cases narrow : value ≤ 65535
  · rw [writeOperand, if_pos (Nat.lt_succ_of_le narrow)]
    rcases Nat.lt_or_ge memory.size (address + 1 + 2) with beyond | room
    · rw [writeWord_eq_error addressable beyond]
      simp [operandChecks, firstFailure?, Written.ofAccess, narrow, beyond, outside, bitSize]
    · rw [writeWord_eq_ok addressable room]
      simp [operandChecks, firstFailure?, Written.ofAccess, narrow, room]
  · rw [writeOperand, if_neg (fun below => narrow (Nat.le_of_lt_succ below))]
    simp [operandChecks, firstFailure?, narrow]

theorem writeFramed_fault (below : address ≤ memory.size) (framing : Framing Empty) :
    (writeFramed memory address framing).fault = firstFailure? (framing.checks address memory.size) := by
  rw [Framing.checks, firstFailure?_cons]
  by_cases immediate : framing.opcode = .store ∧ framing.mode = .immediate
  · simp [writeFramed, immediate]
  have addressable := addressable_of_le small below
  -- The head is written before the operand is looked at, so its place is checked first.
  simp only [decide_eq_true immediate, if_true, firstFailure?_cons]
  rcases Nat.lt_or_ge address memory.size with inside | beyond
  · rw [writeFramed_inside immediate addressable inside, decide_eq_true inside]
    simp only [if_true]
    cases framing.payload? with
    | none => rfl
    | some value =>
        have sizes : (memory.putByte address framing.head.encode).size = memory.size := size_putByte memory address _
        rw [writeOperand_fault (by rwa [sizes]) (by rwa [sizes]), sizes]
  · rw [writeFramed_outside immediate addressable beyond, decide_eq_false (Nat.not_lt.2 beyond)]
    rfl

/-- An instruction is refused for the first check that fails. -/
theorem Instruction.write_fault {instruction : Instruction} (below : instruction.address ≤ memory.size) :
    (instruction.write memory).fault = firstFailure? (instruction.checks memory.size) := by
  cases framed : instruction.shape.framing? with
  | some framing => rw [write_of_framing framed, checks_of_framing framed, writeFramed_fault small below]
  | none =>
      obtain ⟨value, isData⟩ := Shape.framing?_eq_none_iff.1 framed
      obtain ⟨labels, shape, address⟩ := instruction
      cases isData
      exact writeData_fault small below value

end Small

/-- A program is refused for the first check that fails. -/
theorem writeAll_fault {start finish : Nat} {instructions : List Instruction} {memory : Memory}
    (tiles : Tiles start finish instructions) (small : memory.size < 2 ^ 61) (below : start ≤ memory.size) :
    (writeAll instructions memory).fault = firstFailure? (checksOf memory.size instructions) := by
  -- What is written before changes no size, so the checks of the rest are those of the same memory.
  induction instructions generalizing start memory with
  | nil => rfl
  | cons first rest ih =>
      obtain ⟨rfl, others⟩ := tiles
      rw [writeAll, checksOf, List.flatMap_cons, firstFailure?_append, ← first.write_fault small below]
      cases stopped : (first.write memory).fault with
      | some fault => simp only [Written.andThen, stopped, Option.some_or]
      | none =>
          obtain ⟨-, inside, written⟩ := first.write_of_fault_eq_none (addressable_of_le small below) stopped
          have sizes : (memory.putBytes first.address first.shape.bytes).size = memory.size :=
            size_putBytes memory first.address first.shape.bytes
          rw [written, Option.none_or]
          exact (ih others (sizes ▸ small) (sizes ▸ inside)).trans (by rw [sizes]; rfl)

section Assembled

variable {memoryBytes : Option Nat} {source : String} {program : Program}
  (assembled : Program.assemble memoryBytes source = .ok program)

include assembled

theorem resolve_of_assemble :
    ∃ statements, Grammar.parse source = .ok statements ∧ resolve statements = .ok program.instructions ∧
      Tiles 0 (programSize program.instructions) program.instructions := by
  obtain ⟨statements, parsed, laidOut, -⟩ := Program.assemble_eq_ok_iff.1 assembled
  exact ⟨statements, parsed, by rw [resolve, laidOut]; rfl, (layout_eq_ok laidOut).2.1⟩

/-- The image of an assembled program: its bytes, and zeros behind them. -/
theorem image_of_assemble (addressable : 8 * min (programSize program.instructions)
      (memoryBytes.getD (programSize program.instructions) + 1) ≤ bitAddressBound) :
    (∀ instruction ∈ program.instructions, instruction.Encodable) ∧
      programSize program.instructions ≤ program.memory.size ∧
      program.memory.size = memoryBytes.getD (programSize program.instructions) ∧
      program.memory.bytes.toList = programBytes program.instructions ++
        List.replicate (program.memory.size - programSize program.instructions) 0 := by
  obtain ⟨-, -, -, written⟩ := Program.assemble_eq_ok_iff.1 assembled
  obtain ⟨-, -, -, tiles⟩ := resolve_of_assemble assembled
  have length := tiles.length_programBytes
  rw [Nat.zero_add] at length
  obtain ⟨encodable, fits, image⟩ := writeAll_of_fault_eq_none tiles (Nat.zero_le _)
    (by rwa [Program.blankMemory, size_zeroed]) (congrArg Written.fault written)
  have memory : program.memory = (Program.blankMemory memoryBytes program.instructions).putBytes 0
      (programBytes program.instructions) := congrArg Written.memory (written.symm.trans image)
  rw [Program.blankMemory, size_zeroed] at fits
  have size : program.memory.size = memoryBytes.getD (programSize program.instructions) := by
    rw [memory, size_putBytes, Program.blankMemory, size_zeroed]
  have bytes := bytes_putBytes_zeroed (length.symm ▸ fits)
  rw [length] at bytes
  exact ⟨encodable, size ▸ fits, size, by rw [size, memory]; exact bytes⟩

end Assembled

theorem Grammar.exists_parse_fault {source : String} {fault : Fault} (failed : parse source = .error fault) :
    ∃ line column near, fault = .parse line column near := by
  unfold parse at failed
  split at failed
  · cases failed
  · cases failed
    exact ⟨_, _, _, rfl⟩

/-- The memory that a text is assembled into is small enough for all its bits to have addresses of 64 bits. -/
def Addressable (memoryBytes : Option Nat) (source : String) : Prop :=
  ∀ statements instructions, Grammar.parse source = .ok statements → resolve statements = .ok instructions →
    memoryBytes.getD (programSize instructions) < 2 ^ 61

section Outcome

variable {memoryBytes : Option Nat} {source : String} (addressable : Addressable memoryBytes source)

include addressable

theorem Addressable.of_assemble {program : Program} (assembled : Program.assemble memoryBytes source = .ok program) :
    memoryBytes.getD (programSize program.instructions) < 2 ^ 61 := by
  obtain ⟨statements, parsed, resolved, -⟩ := resolve_of_assemble assembled
  exact addressable statements program.instructions parsed resolved

theorem writeAll_fault_of_layout {statements : List Statement} {result : Layout}
    (parsed : Grammar.parse source = .ok statements) (laidOut : layout statements = .ok result) :
    (writeAll result.instructions (Program.blankMemory memoryBytes result.instructions)).fault =
      firstFailure? (checksOf (memoryBytes.getD (programSize result.instructions)) result.instructions) := by
  have small := addressable statements result.instructions parsed (by rw [resolve, laidOut]; rfl)
  rw [writeAll_fault (layout_eq_ok laidOut).2.1 (by rwa [Program.blankMemory, size_zeroed]) (Nat.zero_le _),
    Program.blankMemory, size_zeroed]

/-- A text is refused for what cannot be read, or else for its labels, or else for the first check that fails. -/
theorem refused_iff (fault : Fault) :
    Program.assemble memoryBytes source = .error fault ↔
      Grammar.parse source = .error fault ∨ ∃ statements, Grammar.parse source = .ok statements ∧
        (resolve statements = .error fault ∨ ∃ instructions, resolve statements = .ok instructions ∧
          firstFailure? (checksOf (memoryBytes.getD (programSize instructions)) instructions) = some fault) := by
  rw [Program.assemble_eq_error_iff]
  refine or_congr_right (exists_congr fun statements => and_congr_right fun parsed => ?_)
  rw [resolve_eq_error_iff]
  refine or_congr_right ⟨?_, ?_⟩
  · rintro ⟨result, laidOut, failed⟩
    rw [writeAll_fault_of_layout addressable parsed laidOut] at failed
    exact ⟨result.instructions, by rw [resolve, laidOut]; rfl, failed⟩
  · rintro ⟨instructions, resolved, failed⟩
    obtain ⟨result, laidOut, rfl⟩ := exists_of_map_eq_ok resolved
    exact ⟨result, laidOut, (writeAll_fault_of_layout addressable parsed laidOut).trans failed⟩

theorem accepted_iff :
    (∃ program, Program.assemble memoryBytes source = .ok program) ↔
      ∃ statements instructions, Grammar.parse source = .ok statements ∧ resolve statements = .ok instructions ∧
        (∀ instruction ∈ instructions, instruction.Encodable) ∧
        ∀ size, memoryBytes = some size → programSize instructions ≤ size := by
  constructor
  · rintro ⟨program, assembled⟩
    obtain ⟨statements, parsed, resolved, -⟩ := resolve_of_assemble assembled
    have small := addressable.of_assemble assembled
    obtain ⟨encodable, fits, size, -⟩ := image_of_assemble assembled (addressable_of_small small _)
    refine ⟨statements, program.instructions, parsed, resolved, encodable, ?_⟩
    rintro count rfl
    rwa [size] at fits
  · rintro ⟨statements, instructions, parsed, resolved, encodable, fits⟩
    obtain ⟨result, laidOut, rfl⟩ := exists_of_map_eq_ok resolved
    have room : programSize result.instructions ≤ memoryBytes.getD (programSize result.instructions) := by
      cases memoryBytes with
      | none => exact Nat.le_refl _
      | some size => exact fits size rfl
    have passed := (checksOf_passed_iff (layout_eq_ok laidOut).2.1).2 ⟨encodable, room⟩
    rw [← writeAll_fault_of_layout addressable parsed laidOut] at passed
    have written : writeAll result.instructions (Program.blankMemory memoryBytes result.instructions) =
        ⟨(writeAll result.instructions (Program.blankMemory memoryBytes result.instructions)).memory, none⟩ :=
      congrArg (Written.mk _) passed
    exact ⟨⟨result.instructions, result.labels, _⟩,
      Program.assemble_eq_ok_iff.2 ⟨statements, parsed, laidOut, written⟩⟩

/-- More memory only adds zeros to an image. -/
theorem image_of_wider {otherBytes : Option Nat} {program wider : Program}
    (assembled : Program.assemble memoryBytes source = .ok program)
    (assembledWider : Program.assemble otherBytes source = .ok wider)
    (sizes : program.memory.size ≤ wider.memory.size) :
    wider.memory.bytes.toList = program.memory.bytes.toList ++
      List.replicate (wider.memory.size - program.memory.size) 0 := by
  -- The instructions do not depend on the memory, so both images hold the same bytes.
  obtain ⟨statements, parsed, resolved, -⟩ := resolve_of_assemble assembled
  obtain ⟨statementsAgain, parsedAgain, resolvedAgain, -⟩ := resolve_of_assemble assembledWider
  cases parsed.symm.trans parsedAgain
  have same : program.instructions = wider.instructions := Except.ok.inj (resolved.symm.trans resolvedAgain)
  have small := addressable.of_assemble assembled
  obtain ⟨-, fits, size, bytes⟩ := image_of_assemble assembled (addressable_of_small small _)
  obtain ⟨-, -, -, bytesWider⟩ :=
    image_of_assemble assembledWider (by rw [bitAddressBound, UInt64.size, ← same]; omega)
  rw [bytes, bytesWider, same, List.append_assoc, List.replicate_append_replicate]
  congr 2
  rw [← same]
  omega

/-- What is refused neither for its text nor for its labels is refused for a check that fails. -/
theorem exists_failed_check {fault : Fault} (refused : Program.assemble memoryBytes source = .error fault)
    (readable : ∀ line column near, fault ≠ .parse line column near)
    (labelled : ∀ name, fault ≠ .duplicateLabel name ∧ fault ≠ .undefinedLabel name) :
    ∃ instructions, Tiles 0 (programSize instructions) instructions ∧
      firstFailure? (checksOf (memoryBytes.getD (programSize instructions)) instructions) = some fault := by
  rcases (refused_iff addressable _).1 refused with
    unread | ⟨statements, -, unresolved | ⟨instructions, resolved, failed⟩⟩
  · obtain ⟨line, column, near, other⟩ := Grammar.exists_parse_fault unread
    exact absurd other (readable line column near)
  · rw [resolve_eq_error_iff, layout_eq_error_iff] at unresolved
    obtain ⟨name, other, -⟩ | ⟨-, name, other, -⟩ := unresolved
    · exact absurd other (labelled name).1
    · exact absurd other (labelled name).2
  · obtain ⟨result, laidOut, rfl⟩ := exists_of_map_eq_ok resolved
    exact ⟨result.instructions, (layout_eq_ok laidOut).2.1, failed⟩

/-- A program that gets just the memory it needs is never refused for its place. -/
theorem assemble_ne_memory_fault (exactSize : memoryBytes = none) (fault : Memory.Fault) :
    Program.assemble memoryBytes source ≠ .error (.memory fault) := by
  subst exactSize
  intro refused
  obtain ⟨instructions, tiles, failed⟩ := exists_failed_check addressable refused nofun (fun _ => ⟨nofun, nofun⟩)
  exact firstFailure?_ne_memory tiles (Nat.le_refl _) fault failed

theorem assemble_ne_overflow : Program.assemble memoryBytes source ≠ .error .overflow := by
  intro refused
  obtain ⟨instructions, -, failed⟩ := exists_failed_check addressable refused nofun (fun _ => ⟨nofun, nofun⟩)
  exact firstFailure?_ne_overflow instructions failed

/-- Nothing panics when a program is assembled into memory of which all bits have addresses. -/
theorem outcome_of_addressable :
    Program.outcome memoryBytes source =
      match Program.assemble memoryBytes source with
      | .ok program => .accepted program
      | .error fault => .rejected fault := by
  unfold Program.outcome
  cases read : Grammar.parse source with
  | error fault =>
      have refused : Program.assemble memoryBytes source = .error fault :=
        Program.assemble_eq_error_iff.2 (.inl read)
      rw [refused]
      rfl
  | ok statements =>
      cases laidOut : layout statements with
      | error fault =>
          have refused : Program.assemble memoryBytes source = .error fault :=
            Program.assemble_eq_error_iff.2 (.inr ⟨statements, read, .inl laidOut⟩)
          simp [laidOut, refused, bind, Except.bind]
      | ok result =>
          have small := addressable statements result.instructions read (by rw [resolve, laidOut]; rfl)
          have fits : Program.fits memoryBytes result.instructions = true :=
            decide_eq_true (Nat.lt_trans small (by decide))
          simp only [bind, Except.bind, laidOut, fits, if_true]
          cases assembled : Program.assemble memoryBytes source with
          | ok program => rfl
          | error fault =>
              cases fault with
              | overflow => exact absurd assembled (assemble_ne_overflow addressable)
              | _ => rfl

end Outcome

/-- Which texts are assembled, and for what the others are refused.  A text is assembled if it can be read, its labels
    can be resolved, each of its instructions has an encoding, and the program fits into the memory that is asked
    for.  The image has the size that is asked for, and a larger one only adds zeros.  Otherwise the fault is the one
    of reading, or else the one of the labels, or else that of the first check that fails; without a memory size it
    is never the fault of a place. -/
theorem assembles_or_first_fault {memoryBytes : Option Nat} {source : String}
    (addressable : Addressable memoryBytes source) :
    ((∃ program, Program.assemble memoryBytes source = .ok program) ↔
        ∃ statements instructions, Grammar.parse source = .ok statements ∧ resolve statements = .ok instructions ∧
          (∀ instruction ∈ instructions, instruction.Encodable) ∧
          ∀ size, memoryBytes = some size → programSize instructions ≤ size) ∧
      (∀ program, Program.assemble memoryBytes source = .ok program →
        program.memory.size = memoryBytes.getD (programSize program.instructions) ∧
        ∀ otherBytes wider, Program.assemble otherBytes source = .ok wider →
          program.memory.size ≤ wider.memory.size →
          wider.memory.bytes.toList = program.memory.bytes.toList ++
            List.replicate (wider.memory.size - program.memory.size) 0) ∧
      (memoryBytes = none → ∀ fault, Program.assemble memoryBytes source ≠ .error (.memory fault)) ∧
      (∀ fault, Program.assemble memoryBytes source = .error fault ↔
        Grammar.parse source = .error fault ∨ ∃ statements, Grammar.parse source = .ok statements ∧
          (resolve statements = .error fault ∨ ∃ instructions, resolve statements = .ok instructions ∧
            firstFailure? (checksOf (memoryBytes.getD (programSize instructions)) instructions) = some fault)) := by
  refine ⟨accepted_iff addressable, ?_, assemble_ne_memory_fault addressable, refused_iff addressable⟩
  intro program assembled
  have small := addressable.of_assemble assembled
  obtain ⟨-, -, size, -⟩ := image_of_assemble assembled (addressable_of_small small _)
  exact ⟨size, fun otherBytes wider => image_of_wider addressable assembled⟩

/-- Data that is too wide and would not fit into three bytes of memory. -/
def wideDataSource : String := "load r1, #7 mem 300"

def wideDataStatements : List Statement :=
  [⟨[], .binary .load .r1 (.immediate 7)⟩, ⟨[], .data 300⟩]

def wideDataInstructions : List Instruction :=
  [⟨[], .binary .load .r1 (.immediate 7), 0⟩, ⟨[], .data 300, 3⟩]

theorem assembles_or_first_fault_wide_data :
    Addressable (some 3) wideDataSource ∧
      Program.assemble (some 3) wideDataSource = .error (.dataTooWide 300 3) := by
  have addressable : Addressable (some 3) wideDataSource := by
    intro statements instructions _ _
    exact (by decide : 3 < 2 ^ 61)
  have parsed : Grammar.parse wideDataSource = .ok wideDataStatements := by cbv
  have resolved : resolve wideDataStatements = .ok wideDataInstructions := by decide
  have failed : firstFailure? (checksOf 3 wideDataInstructions) = some (.dataTooWide 300 3) := by decide
  obtain ⟨-, -, -, refused⟩ := assembles_or_first_fault addressable
  exact ⟨addressable, (refused _).2 (.inr ⟨_, parsed, .inr ⟨_, resolved, failed⟩⟩)⟩

end WordMachine.Assembly
