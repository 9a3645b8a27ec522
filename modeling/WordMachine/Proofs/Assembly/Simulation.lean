import Mathlib
import WordMachine.Assembly.Program
import WordMachine.Machine.Run
import WordMachine.Proofs.Assembly.Image
import WordMachine.Proofs.Assembly.Interpreter

/-! # Machines run programs as they are written

A machine that starts on the image of a program does the same as the interpreter of its listing, step for step,
as long as it stays on the operations of the listing and leaves their bytes alone.
-/

namespace WordMachine

namespace Machine

/-- The first steps of a run, up to the first halt or fault. -/
def trace : Nat → Machine → List Transition
  | 0, _ => []
  | steps + 1, machine =>
      machine.step ::
        match machine.step.result with
        | .ok .running => trace steps machine.step.machine
        | _ => []

/-- The address where the next step stores a word, if it does and its operand is direct. -/
def storesAt? (machine : Machine) : Option Nat :=
  match machine.fetch, machine.operandField, machine.step.result with
  | .ok ⟨.store, _, .direct⟩, .ok address, .ok _ => some address.toNat
  | _, _, _ => none

end Machine

namespace Assembly

open Reference Machine

/-- A machine is about to execute an operation of a program, and about to leave alone the bytes of all its
    operations. -/
structure Orderly (instructions : List Instruction) (machine : Machine) : Prop where
  listed : ∃ instruction ∈ instructions, instruction.shape.framing?.isSome ∧
    machine.pc.toNat = instruction.address
  apart : ∀ target, machine.storesAt? = some target → ∀ instruction ∈ instructions,
    instruction.shape.framing?.isSome → target + 2 ≤ instruction.address ∨ instruction.next ≤ target

/-- The first steps of a run are orderly, up to the first halt or fault. -/
def OrderlyFor (instructions : List Instruction) : Nat → Machine → Prop
  | 0, _ => True
  | steps + 1, machine =>
      Orderly instructions machine ∧
        (machine.step.result = .ok .running → OrderlyFor instructions steps machine.step.machine)

/-- What assembling makes sure of. -/
structure Listing.Laid (listing : Listing) (table : LabelTable) : Prop where
  tiles : Tiles 0 (programSize listing.instructions) listing.instructions
  becomes : List.Forall₂ (Statement.Becomes table) listing.statements listing.instructions
  labels : labelTable listing.statements = .ok table
  encodable : ∀ instruction ∈ listing.instructions, instruction.Encodable

/-- A running machine whose memory holds the operations of a program. -/
structure Loaded (instructions : List Instruction) (machine : Machine) : Prop where
  running : machine.halted = false
  small : machine.memory.size < 2 ^ 61
  held : ∀ instruction ∈ instructions, ∀ framing, instruction.shape.framing? = some framing →
    machine.memory.Holds instruction.address framing.bytes

/-- The interpreter that a machine stands for. -/
def Listing.view (listing : Listing) (machine : Machine) : Listing.State :=
  ⟨machine.data, listing.locate machine.pc.toNat, machine.halted⟩

/-- A machine is about to execute the instruction at an index of a listing, which is an operation. -/
structure Listing.Meets (listing : Listing) (table : LabelTable) (machine : Machine) (index : Nat)
    (written : Framing String) (framing : Framing Empty) : Prop where
  statement : listing.statements[index]?.bind (·.shape.framing?) = some written
  instruction : ∃ instruction, listing.instructions[index]? = some instruction ∧
    instruction.shape.framing? = some framing ∧ machine.pc.toNat = instruction.address
  resolves : written.Resolves table.resolve framing

namespace Listing

variable {listing : Listing} {table : LabelTable} {machine : Machine}

theorem Laid.meets (laid : listing.Laid table) (orderly : Orderly listing.instructions machine) :
    ∃ index written framing, listing.Meets table machine index written framing := by
  obtain ⟨instruction, member, operation, here⟩ := orderly.listed
  obtain ⟨framing, framed⟩ := Option.isSome_iff_exists.1 operation
  obtain ⟨index, inside, rfl⟩ := List.getElem_of_mem member
  have lengths := laid.becomes.length_eq
  have becomes := laid.becomes.get (i := index) (by omega) inside
  have framings := Shape.framing_of_resolve becomes.shape
  simp only [List.get_eq_getElem] at framings
  rw [framed] at framings
  cases written : listing.statements[index].shape.framing? with
  | none =>
      rw [written] at framings
      cases framings
  | some written' =>
      rw [written] at framings
      cases framings with
      | some resolves =>
          refine ⟨index, written', framing, ?_, ⟨_, List.getElem?_eq_getElem inside, framed, here⟩, resolves⟩
          rw [List.getElem?_eq_getElem (by omega)]
          exact written

/-- The number in the operand field of an operation is the one that its argument gives. -/
theorem Laid.field_eq (laid : listing.Laid table) {written : Framing String} {framing : Framing Empty}
    (resolves : written.Resolves table.resolve framing) :
    written.argument.bind listing.field? = framing.payload? := by
  obtain ⟨-, arguments⟩ := resolves
  rw [Framing.payload?]
  generalize written.argument = argument at arguments
  generalize framing.argument = resolved at arguments
  cases arguments with
  | none => rfl
  | @some argument resolved found =>
      cases argument with
      | label name =>
          obtain ⟨address, named, rfl⟩ := exists_of_map_eq_ok found
          obtain ⟨index, carried, -, rfl⟩ := carrier_of_resolve laid.tiles laid.becomes laid.labels named
          simp [field?, carried, Argument.payload?]
      | accumulator =>
          cases found
          rfl
      | immediate value =>
          cases found
          rfl
      | direct address =>
          cases found
          rfl

section Meeting

variable {index : Nat} {written : Framing String} {framing : Framing Empty}
  (meets : listing.Meets table machine index written framing)

include meets

theorem Meets.address_eq : listing.address index = machine.pc.toNat := by
  obtain ⟨instruction, found, -, here⟩ := meets.instruction
  simp [Listing.address, found, here]

theorem Meets.locate_eq (laid : listing.Laid table) : listing.locate machine.pc.toNat = .listed index := by
  obtain ⟨instruction, found, -, -⟩ := meets.instruction
  obtain ⟨inside, -⟩ := List.getElem?_eq_some_iff.1 found
  rw [← meets.address_eq]
  exact locate_address laid.tiles inside

/-- Falling through goes to the next instruction of the list. -/
theorem Meets.placeAt_succ (laid : listing.Laid table) :
    listing.placeAt (index + 1) = listing.locate (machine.pc.toNat + length written.head.mode) := by
  obtain ⟨instruction, found, framed, here⟩ := meets.instruction
  have size : instruction.size = framing.head.size := Shape.size_of_framing framed
  rw [placeAt_eq_locate laid.tiles, address_succ laid.tiles found, Instruction.next, here, length_eq_size, size,
    meets.resolves.head]

/-- A jump through a label goes where its operand says. -/
theorem Meets.target_eq (laid : listing.Laid table) {data : Data} {operand : Nat}
    (known : operandFrom? (written.argument.bind listing.field?) data written.head = some operand)
    (turns : goesOn written.head data = .jump) :
    listing.target written.argument operand = listing.locate operand := by
  have places : takesPlace written.opcode = true := by
    cases opcode : written.opcode <;> simp [goesOn, Framing.head, opcode] at turns <;> rfl
  rw [laid.field_eq meets.resolves] at known
  have arguments := meets.resolves.argument
  cases argument : written.argument with
  | none => rfl
  | some written' =>
      cases written' with
      | label name =>
          rw [argument] at arguments
          cases resolved : framing.argument with
          | none =>
              rw [resolved] at arguments
              cases arguments
          | some resolved' =>
              rw [resolved] at arguments
              cases arguments with
              | some found =>
                  obtain ⟨address, named, rfl⟩ := exists_of_map_eq_ok found
                  simp only [operandFrom?, Framing.head, Framing.mode, argument, Argument.mode, Framing.payload?,
                    resolved, Option.bind_some, Argument.payload?, directOperand?, places, if_true,
                    Option.some.injEq] at known
                  subst known
                  obtain ⟨index, carried, inside, rfl⟩ :=
                    carrier_of_resolve laid.tiles laid.becomes laid.labels named
                  simp [target, carried, locate_address laid.tiles inside]
      | _ => rfl

section Loaded

variable (loaded : Loaded listing.instructions machine)

include loaded

theorem Meets.holds : machine.memory.Holds machine.pc.toNat framing.bytes := by
  obtain ⟨instruction, found, framed, here⟩ := meets.instruction
  rw [here]
  exact loaded.held instruction (List.mem_of_getElem? found) framing framed

theorem Meets.present : machine.data.bytes[machine.pc.toNat]? = some framing.head.encode :=
  (Array.getElem?_toList ..).trans ((meets.holds loaded) 0 (by simp [Framing.bytes]))

theorem Meets.inside : machine.pc.toNat < machine.memory.size := by
  obtain ⟨inside, -⟩ := List.getElem?_eq_some_iff.1 (meets.present loaded)
  exact inside

theorem Meets.fetch_eq : machine.fetch = .ok written.head :=
  meets.resolves.head ▸ fetch_of_decode loaded.small (meets.present loaded) (Head.decode_encode _)

variable (laid : listing.Laid table)

include laid

theorem Meets.wordAt?_eq {value : Nat} (payload : framing.payload? = some value) :
    wordAt? machine.data.bytes (machine.pc.toNat + 1) = some value := by
  obtain ⟨instruction, found, framed, -⟩ := meets.instruction
  have encodable := laid.encodable instruction (List.mem_of_getElem? found)
  obtain ⟨high, low⟩ := operand_of_holds (meets.holds loaded) payload
  exact wordAt?_eq_some_iff.2 ⟨_, _, (Array.getElem?_toList ..).trans high, (Array.getElem?_toList ..).trans low,
    toNat_wordBytes ((encodable.framed _ framed).narrow _ payload)⟩

/-- The operand that a machine reads from its memory is the one that is written in the source. -/
theorem Meets.operand_eq :
    operand? machine.data machine.pc.toNat written.head =
      operandFrom? (written.argument.bind listing.field?) machine.data written.head := by
  rw [laid.field_eq meets.resolves, operand?]
  cases payload : framing.payload? with
  | some value => rw [meets.wordAt?_eq loaded laid payload]
  | none =>
      rw [← meets.resolves.head]
      simp [operandFrom?, Framing.head, Framing.mode_of_payload?_eq_none payload]

/-- What a step can do: an operation with a known operand is performed or refused, and where the operand stands
    nowhere in memory, it is not read. -/
theorem Meets.step_cases :
    (∃ number, operandFrom? (written.argument.bind listing.field?) machine.data written.head = some number ∧
      refusal? written.head number machine.data = none ∧
      machine.step.result = .ok (.ofControl (goesOn written.head machine.data)) ∧
      machine.step.machine.state = machine.state.after written.head number) ∨
    (∃ number refusal,
      operandFrom? (written.argument.bind listing.field?) machine.data written.head = some number ∧
      refusal? written.head number machine.data = some refusal ∧
      machine.step = ⟨.error (.ofRefusal machine.pc machine.memory.size refusal),
        machine.jumpTo (machine.pc + UInt64.ofNat written.head.size)⟩) ∨
    (∃ address, written.argument.bind listing.field? = some address ∧
      operandFrom? (some address) machine.data written.head = none ∧
      machine.step = ⟨.error (.memory (.outOfBounds (8 * address) 16 machine.memory.bitSize)), machine⟩) := by
  have fetched := meets.fetch_eq loaded
  have inside := meets.inside loaded
  have small := loaded.small
  have operands := meets.operand_eq loaded laid
  cases known : operandFrom? (written.argument.bind listing.field?) machine.data written.head with
  | some number =>
      obtain ⟨operand, found, means⟩ := operand_of_operand? small inside (operands.trans known)
      cases decided : refusal? written.head number machine.data with
      | some refusal =>
          exact .inr (.inl ⟨number, refusal, rfl, decided,
            step_of_refused loaded.running fetched found means decided⟩)
      | none =>
          exact .inl ⟨number, rfl, decided,
            step_of_accepted loaded.running (by omega) fetched found means decided⟩
  | none =>
      cases field : written.argument.bind listing.field? with
      | none =>
          have mode := Framing.mode_of_payload?_eq_none ((laid.field_eq meets.resolves).symm.trans field)
          rw [← meets.resolves.head] at known
          simp [operandFrom?, Framing.head, mode] at known
      | some address =>
          have stands := meets.wordAt?_eq loaded laid ((laid.field_eq meets.resolves).symm.trans field)
          rw [field] at known
          exact .inr (.inr ⟨address, rfl, known, step_of_operand_error loaded.running fetched
            (operand_of_operandFrom?_eq_none small inside stands known)⟩)

/-- A machine and the interpreter that it stands for take the same step. -/
theorem Meets.step?_eq :
    listing.step? (listing.view machine) = some ⟨machine.step.result, listing.view machine.step.machine⟩ := by
  obtain ⟨statement, stated, framed⟩ := Option.bind_eq_some_iff.1 meets.statement
  have inside := meets.inside loaded
  have small := loaded.small
  have next := meets.placeAt_succ laid
  rw [step?, view, meets.locate_eq laid]
  simp only [stated, framed, Option.bind_eq_bind, Option.bind_some]
  obtain ⟨number, known, accepted, result, after⟩ | ⟨number, refusal, known, refused, step⟩ |
    ⟨address, field, known, step⟩ := meets.step_cases loaded laid
  · have data : machine.step.machine.data = perform written.head number machine.data :=
      congrArg Reference.State.data after
    have halted : machine.step.machine.halted = decide (goesOn written.head machine.data = .halt) :=
      congrArg Reference.State.halted after
    have pc : machine.step.machine.pc.toNat = if goesOn written.head machine.data = .jump then number
        else machine.pc.toNat + length written.head.mode :=
      congrArg Reference.State.pc after
    have place : (if goesOn written.head machine.data = .jump then listing.target written.argument number
        else listing.placeAt (index + 1)) = listing.locate machine.step.machine.pc.toNat := by
      rw [pc, next]
      split
      next turns => exact meets.target_eq laid known turns
      next => rfl
    simp only [known, execute, accepted]
    rw [place, result, view, data, halted]
    rfl
  · simp only [known, execute, refused, meets.address_eq]
    rw [step, next, ← toNat_behind (by omega), UInt64.ofNat_toNat, view]
    simp only [jumpTo, loaded.running]
    rfl
  · simp only [field, known]
    rw [step, view, meets.locate_eq laid]
    rfl

theorem Meets.storesAt?_eq {number : Nat} {status : Status}
    (known : operandFrom? (written.argument.bind listing.field?) machine.data written.head = some number)
    (success : machine.step.result = .ok status) (store : written.head.opcode = .store)
    (direct : written.head.mode = .direct) : machine.storesAt? = some number := by
  have fetched := meets.fetch_eq loaded
  generalize written.head = head at *
  obtain ⟨opcode, register, mode⟩ := head
  cases store
  cases direct
  obtain ⟨address, field, rfl⟩ : ∃ address, written.argument.bind listing.field? = some address ∧ address = number := by
    simpa [operandFrom?, directOperand?, takesPlace, Option.bind_eq_some_iff] using known
  obtain ⟨read, bound⟩ := operandField_of_wordAt? loaded.small (meets.inside loaded)
    (meets.wordAt?_eq loaded laid ((laid.field_eq meets.resolves).symm.trans field))
  simp only [storesAt?, fetched, read, success, UInt16.toNat_ofNat_of_lt' bound]

/-- A step that succeeds keeps the bytes that it is orderly for. -/
theorem Meets.bytes_kept (orderly : Orderly listing.instructions machine) {number : Nat} {status : Status}
    (known : operandFrom? (written.argument.bind listing.field?) machine.data written.head = some number)
    (success : machine.step.result = .ok status) {instruction : Instruction}
    (member : instruction ∈ listing.instructions) {operation : Framing Empty}
    (framed : instruction.shape.framing? = some operation) {offset : Nat} (inside : offset < operation.bytes.length) :
    (perform written.head number machine.data).bytes[instruction.address + offset]? =
      machine.data.bytes[instruction.address + offset]? := by
  have length := operation.length_bytes
  have size : instruction.size = operation.head.size := Shape.size_of_framing framed
  apply bytes_perform_outside
  intro store direct
  have apart := orderly.apart number (meets.storesAt?_eq loaded laid known success store direct) instruction member
    (by rw [framed]; rfl)
  simp only [Instruction.next] at apart
  omega

/-- An orderly step leaves the operations of a program in memory. -/
theorem Meets.loaded_step (orderly : Orderly listing.instructions machine)
    (goes : machine.step.result = .ok .running) : Loaded listing.instructions machine.step.machine := by
  obtain ⟨number, known, accepted, result, after⟩ | ⟨number, refusal, known, refused, step⟩ |
    ⟨address, field, known, step⟩ := meets.step_cases loaded laid
  · have data : machine.step.machine.data = perform written.head number machine.data :=
      congrArg Reference.State.data after
    have halted : machine.step.machine.halted = decide (goesOn written.head machine.data = .halt) :=
      congrArg Reference.State.halted after
    refine ⟨?_, ?_, ?_⟩
    · rw [halted]
      rw [goes] at result
      cases control : goesOn written.head machine.data with
      | halt =>
          rw [control] at result
          cases result
      | _ => rfl
    · have sizes : machine.step.machine.memory.size = machine.memory.size :=
        (congrArg (fun data : Data => data.bytes.length) data).trans (length_perform ..)
      rw [sizes]
      exact loaded.small
    · intro instruction member operation framed offset inside
      have kept := meets.bytes_kept loaded laid orderly known goes member framed inside
      rw [← data] at kept
      rw [← loaded.held instruction member operation framed offset inside, ← Array.getElem?_toList,
        ← Array.getElem?_toList]
      exact kept
  · rw [step] at goes
    cases goes
  · rw [step] at goes
    cases goes

end Loaded

end Meeting

/-- A machine and the interpreter that it stands for take the same steps, as long as the run is orderly. -/
theorem Laid.trace_eq (laid : listing.Laid table) {steps : Nat} (loaded : Loaded listing.instructions machine)
    (orderly : OrderlyFor listing.instructions steps machine) :
    listing.trace steps (listing.view machine) =
      (machine.trace steps).map fun transition => ⟨transition.result, listing.view transition.machine⟩ := by
  induction steps generalizing machine with
  | zero => rfl
  | succ steps ih =>
      obtain ⟨first, others⟩ := orderly
      obtain ⟨index, written, framing, meets⟩ := laid.meets first
      rw [trace, meets.step?_eq loaded laid, Machine.trace, List.map_cons]
      simp only
      cases result : machine.step.result with
      | error fault => rfl
      | ok status =>
          cases status with
          | halted => rfl
          | running => rw [← ih (meets.loaded_step loaded laid first result) (others result)]

theorem observe_view (listing : Listing) (machine : Machine) :
    listing.observe (listing.view machine) = machine.state := by
  rw [observe, view, addressOf_locate]
  rfl

theorem Laid.start_eq (laid : listing.Laid table) (memory : Memory) :
    listing.start ⟨memory.bytes.toList, fun _ => 0⟩ = listing.view (.ofMemory memory) := by
  have first : listing.address 0 = 0 := by
    have tiles := laid.tiles
    rw [Listing.address]
    cases instructions : listing.instructions with
    | nil => rfl
    | cons first rest =>
        rw [instructions] at tiles
        exact tiles.1
  have registers : (Machine.ofMemory memory).data = ⟨memory.bytes.toList, fun _ => 0⟩ := by
    rw [Machine.data]
    congr 1
    funext register
    cases register <;> rfl
  rw [start, placeAt_eq_locate laid.tiles, first, view, registers]
  rfl

end Listing

theorem laid_of_assemble {memoryBytes : Option Nat} {source : String} {statements : List Statement}
    {program : Program} (parsed : Grammar.parse source = .ok statements)
    (assembled : Program.assemble memoryBytes source = .ok program)
    (small : (Program.blankMemory memoryBytes program.instructions).size < 2 ^ 61) :
    (⟨statements, program.instructions⟩ : Listing).Laid program.labels ∧
      Loaded program.instructions (.ofMemory program.memory) := by
  obtain ⟨statements', parsed', laidOut, written⟩ := Program.assemble_eq_ok_iff.1 assembled
  cases parsed.symm.trans parsed'
  obtain ⟨labels, tiles, becomes⟩ := layout_eq_ok laidOut
  rw [Program.blankMemory] at small written
  have success := congrArg Written.fault written
  have image : program.memory =
      (writeAll program.instructions (.zeroed (memoryBytes.getD (programSize program.instructions)))).memory :=
    (congrArg Written.memory written).symm
  obtain ⟨encodable, -, whole⟩ :=
    writeAll_of_fault_eq_none tiles (Nat.zero_le _) (addressable_of_small small _) success
  refine ⟨⟨tiles, becomes, labels, encodable⟩, rfl, ?_, ?_⟩
  · rw [Machine.ofMemory, image, whole, Memory.size_putBytes]
    exact small
  · intro instruction member framing framed
    rw [← Shape.bytes_of_framing framed, Machine.ofMemory, image]
    rw [Memory.size_zeroed] at small
    exact holds_writeAll_zeroed tiles (addressable_of_small small _) success member

/-- An assembled program runs as it is written: as long as the machine stays on the operations of the listing and
    leaves their bytes alone, its results, data and addresses are those of the interpreter of the listing. -/
theorem assembled_runs_as_written {memoryBytes : Option Nat} {source : String} {statements : List Statement}
    {program : Program} {steps : Nat} (parsed : Grammar.parse source = .ok statements)
    (assembled : Program.assemble memoryBytes source = .ok program)
    (small : (Program.blankMemory memoryBytes program.instructions).size < 2 ^ 61)
    (orderly : OrderlyFor program.instructions steps (.ofMemory program.memory)) :
    let listing : Listing := ⟨statements, program.instructions⟩
    ((Machine.ofMemory program.memory).trace steps).map
        (fun transition => (transition.result, transition.machine.state)) =
      (listing.trace steps (listing.start ⟨program.memory.bytes.toList, fun _ => 0⟩)).map
        (fun outcome => (outcome.result, listing.observe outcome.state)) := by
  intro listing
  obtain ⟨laid, loaded⟩ : listing.Laid program.labels ∧ Loaded listing.instructions (.ofMemory program.memory) :=
    laid_of_assemble parsed assembled small
  rw [laid.start_eq, laid.trace_eq loaded orderly, List.map_map]
  apply List.map_congr_left
  intro transition _
  simp only [Function.comp, Listing.observe_view]

/-- A jump over data that the instruction behind it loads. -/
def skipSource : String := "jmp @go mem 0 mem 7 @go: load r1, 3"

def skipStatements : List Statement :=
  [⟨[], .unary .jump none (some (.label "go"))⟩, ⟨[], .data 0⟩, ⟨[], .data 7⟩, ⟨["go"], .binary .load .r1 (.direct 3)⟩]

def skipProgram : Program where
  instructions := [⟨[], .unary .jump none (some (.direct 5)), 0⟩, ⟨[], .data 0, 3⟩, ⟨[], .data 7, 4⟩,
    ⟨["go"], .binary .load .r1 (.direct 3), 5⟩]
  labels := [("go", 5)]
  memory := .ofBytes [0x22, 0, 5, 0, 7, 0x46, 0, 3]

theorem assembled_runs_as_written_skip :
    let machine := Machine.ofMemory skipProgram.memory
    let listing : Listing := ⟨skipStatements, skipProgram.instructions⟩
    OrderlyFor skipProgram.instructions 2 machine ∧
      (machine.trace 2).map (fun transition => (transition.result, transition.machine.state)) =
        (listing.trace 2 (listing.start ⟨skipProgram.memory.bytes.toList, fun _ => 0⟩)).map
          (fun outcome => (outcome.result, listing.observe outcome.state)) := by
  have orderly : OrderlyFor skipProgram.instructions 2 (.ofMemory skipProgram.memory) := by
    refine ⟨⟨⟨⟨[], .unary .jump none (some (.direct 5)), 0⟩, by simp [skipProgram], rfl, rfl⟩, ?_⟩, ?_⟩
    · intro target stores
      cases stores
    · intro _
      refine ⟨⟨⟨⟨["go"], .binary .load .r1 (.direct 3), 5⟩, by simp [skipProgram], rfl, by decide⟩, ?_⟩,
        fun _ => trivial⟩
      intro target stores
      cases stores
  have parsed : Grammar.parse skipSource = .ok skipStatements := by cbv
  have assembled : Program.assemble none skipSource = .ok skipProgram := by cbv
  exact ⟨orderly, assembled_runs_as_written parsed assembled (by decide) orderly⟩

end Assembly

end WordMachine
