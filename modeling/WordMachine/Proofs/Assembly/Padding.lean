import Mathlib
import WordMachine.Assembly.Program
import WordMachine.Proofs.Assembly.Confinement
import WordMachine.Proofs.Machine.Footprint
import WordMachine.Proofs.Memory.Padding

/-! # Programs in more memory than they need

A program that is assembled into just the memory it needs is assembled into any larger memory, with zeros behind it.
A run that halts in the one halts in the other, since it reads nothing else.
-/

namespace WordMachine.Assembly

open Memory

/-- Writing that keeps the size of a memory and, where it succeeds, does the same with zeros behind the memory. -/
structure Widens (write : Memory → Written) : Prop where
  size : ∀ memory, (write memory).memory.size = memory.size
  padded : ∀ memory count, (write memory).fault = none →
    write (memory.padded count) = ⟨(write memory).memory.padded count, none⟩

namespace Widens

variable {write next : Memory → Written}

theorem done : Widens fun memory => ⟨memory, none⟩ :=
  ⟨fun _ => rfl, fun _ _ _ => rfl⟩

theorem stop (fault : Fault) : Widens fun memory => ⟨memory, some fault⟩ :=
  ⟨fun _ => rfl, fun _ _ success => by cases success⟩

theorem andThen (first : Widens write) (second : Widens next) : Widens fun memory => (write memory).andThen next := by
  refine ⟨fun memory => ?_, fun memory count success => ?_⟩
  · cases stopped : (write memory).fault with
    | some fault => rw [Written.andThen_of_some stopped, first.size]
    | none => rw [Written.andThen_of_none stopped, second.size, first.size]
  · obtain ⟨goesOn, success⟩ := Written.andThen_fault_eq_none_iff.1 success
    rw [Written.andThen_of_none goesOn, first.padded memory count goesOn]
    exact second.padded _ count success

theorem access {write : Memory → Except Memory.Fault Memory}
    (size : ∀ memory written, write memory = .ok written → written.size = memory.size)
    (padded : ∀ memory written, write memory = .ok written → ∀ count,
      write (memory.padded count) = .ok (written.padded count)) :
    Widens fun memory => .ofAccess memory (write memory) := by
  refine ⟨fun memory => ?_, fun memory count success => ?_⟩
  · cases written : write memory with
    | error fault => rfl
    | ok after => exact size memory after written
  · cases written : write memory with
    | error fault =>
        rw [written] at success
        cases success
    | ok after =>
        rw [padded memory after written count]
        rfl

theorem setNumber (start length value : Nat) :
    Widens fun memory => .ofAccess memory (memory.setNumber start length value) :=
  access (fun _ _ success => size_setNumber success) fun _ _ success => setNumber_padded success

theorem writeByte (address : Nat) (byte : UInt8) :
    Widens fun memory => .ofAccess memory (memory.writeByte address byte) :=
  access (fun _ _ success => size_access success) fun _ _ success => access_padded success

theorem writeWord (address : Nat) (word : UInt16) :
    Widens fun memory => .ofAccess memory (memory.writeWord address word) :=
  access (fun _ _ success => size_access success) fun _ _ success => access_padded success

end Widens

theorem widens_writeFields (fields : List BitField) : Widens (writeFields · fields) := by
  induction fields with
  | nil => exact .done
  | cons field rest ih => exact (Widens.setNumber field.start field.length field.value).andThen ih

theorem widens_writeData (address value : Nat) : Widens (writeData · address value) := by
  unfold writeData
  split
  · exact .writeByte address (UInt8.ofNat value)
  · exact .stop _

theorem widens_writeOperand (address value : Nat) : Widens (writeOperand · address value) := by
  unfold writeOperand
  split
  · exact .writeWord (address + 1) (UInt16.ofNat value)
  · exact .stop _

theorem widens_writeFramed (address : Nat) (framing : Framing Empty) : Widens (writeFramed · address framing) := by
  unfold writeFramed
  split
  · exact .stop _
  cases startBit? address with
  | none => exact .stop _
  | some start =>
      refine (widens_writeFields _).andThen ?_
      cases framing.argument.bind Argument.payload? with
      | none => exact .done
      | some value => exact widens_writeOperand address value

theorem Instruction.widens_write (instruction : Instruction) : Widens instruction.write := by
  cases framed : instruction.shape.framing? with
  | some framing =>
      have write : instruction.write = (writeFramed · instruction.address framing) :=
        funext (write_of_framing framed)
      rw [write]
      exact widens_writeFramed instruction.address framing
  | none =>
      obtain ⟨value, isData⟩ := Shape.framing?_eq_none_iff.1 framed
      obtain ⟨labels, shape, address⟩ := instruction
      cases isData
      exact widens_writeData address value

/-- A program that is written is written in the same way with zeros behind the memory. -/
theorem widens_writeAll (instructions : List Instruction) : Widens (writeAll instructions) := by
  induction instructions with
  | nil => exact .done
  | cons first rest ih => exact first.widens_write.andThen ih

section Wider

variable {source : String} {program : Program} (assembled : Program.assemble none source = .ok program)

include assembled

theorem size_of_assemble : program.memory.size = programSize program.instructions := by
  obtain ⟨statements, -, -, written⟩ := Program.assemble_eq_ok_iff.1 assembled
  have size := (widens_writeAll program.instructions).size (Program.blankMemory none program.instructions)
  rw [written, Program.blankMemory, size_zeroed] at size
  exact size

/-- A program is assembled into any larger memory, with zeros behind it. -/
theorem assemble_padded {size : Nat} (larger : program.memory.size ≤ size) :
    Program.assemble (some size) source =
      .ok { program with memory := program.memory.padded (size - program.memory.size) } := by
  have needed := size_of_assemble assembled
  obtain ⟨statements, parsed, laidOut, written⟩ := Program.assemble_eq_ok_iff.1 assembled
  have blank : Program.blankMemory (some size) program.instructions =
      (Program.blankMemory none program.instructions).padded (size - program.memory.size) := by
    rw [Program.blankMemory, Program.blankMemory, padded_zeroed]
    simp only [Option.getD_some, Option.getD_none]
    congr 1
    omega
  refine Program.assemble_eq_ok_iff.2 ⟨statements, parsed, laidOut, ?_⟩
  rw [blank, (widens_writeAll _).padded _ _ (congrArg Written.fault written), written]

end Wider

section Runs

open Machine

variable {machine : Machine} {count : Nat}

/-- Steps that succeed find all they read in memory, so they can be taken with zeros behind it as well. -/
theorem supports_padded (success : ∀ earlier < count, ∃ status, (machine.stepped earlier).step.result = .ok status)
    (more : Nat) : machine.Supports count (machine.memory.padded more) := by
  refine ⟨success, ?_, ?_⟩
  · rw [size_padded]
    exact Nat.le_add_right _ _
  · intro address member
    obtain ⟨earlier, bound, read⟩ := mem_readsWithin.1 member
    obtain ⟨status, succeeds⟩ := success earlier bound
    obtain ⟨access, member, within⟩ := List.mem_flatMap.1 read
    have fits := reads_inside succeeds member
    rw [Access.Inside, size_stepped] at fits
    exact bytes_padded (Nat.lt_of_lt_of_le (Access.mem_addresses.1 within).2 fits) more

end Runs

/-- A run depends on nothing but the bytes that it reads.  If some steps succeed, they succeed in every memory that is
    at least as long and has the same bytes where they read: with the same results, registers, counters and flags, and
    they write the same bytes and no others.  So a program that halts in just the memory that it needs halts after as
    many steps and with the same registers and counter in all larger memories that it is assembled into. -/
theorem runs_depend_on_reads :
    (∀ (machine : Machine) (count : Nat) (memory : Memory),
      (∀ earlier < count, ∃ status, (machine.stepped earlier).step.result = .ok status) →
      machine.memory.size ≤ memory.size →
      (∀ address ∈ machine.readsWithin count, memory.bytes[address]? = machine.memory.bytes[address]?) →
      let other := machine.withMemory memory
      (∀ earlier < count, (other.stepped earlier).step.result = (machine.stepped earlier).step.result) ∧
        (∀ reached ≤ count, (other.stepped reached).registers = (machine.stepped reached).registers ∧
          (other.stepped reached).pc = (machine.stepped reached).pc ∧
          (other.stepped reached).halted = (machine.stepped reached).halted) ∧
        Machine.ChangeAlike (machine.writesWithin count) machine.memory (machine.stepped count).memory memory
          (other.stepped count).memory) ∧
    ∀ source program limit steps, Program.assemble none source = .ok program →
      ((Machine.ofMemory program.memory).run limit).result = .ok steps →
      ∀ size, program.memory.size ≤ size → ∃ wider, Program.assemble (some size) source = .ok wider ∧
        wider.memory = program.memory.padded (size - program.memory.size) ∧
        ((Machine.ofMemory wider.memory).run limit).result = .ok steps ∧
        ((Machine.ofMemory wider.memory).run limit).machine.registers =
          ((Machine.ofMemory program.memory).run limit).machine.registers ∧
        ((Machine.ofMemory wider.memory).run limit).machine.pc =
          ((Machine.ofMemory program.memory).run limit).machine.pc := by
  constructor
  · intro machine count memory success longer same other
    have supports : machine.Supports count memory := ⟨success, longer, same⟩
    refine ⟨fun earlier bound => supports.result_eq bound, ?_, ?_⟩
    · intro reached bound
      obtain ⟨after, stepped, -⟩ := (supports.of_le bound).stepped
      have alike : other.stepped reached = (machine.stepped reached).withMemory after := stepped
      rw [alike]
      exact ⟨rfl, rfl, rfl⟩
    · obtain ⟨after, stepped, change⟩ := supports.stepped
      have alike : other.stepped count = (machine.stepped count).withMemory after := stepped
      rw [alike]
      exact change
  · intro source program limit steps assembled halts size larger
    refine ⟨_, assemble_padded assembled larger, rfl, ?_⟩
    obtain ⟨after, outcome⟩ := Machine.run_withMemory halts fun halts =>
      supports_padded (fun earlier bound => (halts.advances earlier bound).2) (size - program.memory.size)
    have run : (Machine.ofMemory (program.memory.padded (size - program.memory.size))).run limit = _ := outcome
    rw [run]
    exact ⟨rfl, rfl, rfl⟩

/-- A program that copies a word to the place one byte behind it. -/
def shiftingSource : String := "load r1, @word store r1, 8 halt @word mem 18 mem 52 mem 0"

def shiftingProgram : Program where
  instructions := [⟨[], .binary .load .r1 (.direct 7), 0⟩, ⟨[], .binary .store .r1 (.direct 8), 3⟩,
    ⟨[], .nullary .halt, 6⟩, ⟨["word"], .data 18, 7⟩, ⟨[], .data 52, 8⟩, ⟨[], .data 0, 9⟩]
  labels := [("word", 7)]
  memory := .ofBytes [0x46, 0, 7, 0x56, 0, 8, 0x10, 18, 52, 0]

/-- A memory that differs from that of the program in a byte that is only written, and that has a byte more. -/
def shiftingOther : Memory := .ofBytes [0x46, 0, 7, 0x56, 0, 8, 0x10, 18, 52, 255, 5]

theorem runs_depend_on_reads_shifting :
    (((Machine.ofMemory shiftingProgram.memory).withMemory shiftingOther).stepped 2).step.result = .ok .halted ∧
      (((Machine.ofMemory shiftingProgram.memory).withMemory shiftingOther).stepped 3).memory.bytes[10]? = some 5 ∧
      Program.assemble none shiftingSource = .ok shiftingProgram ∧
      ∃ wider, Program.assemble (some 16) shiftingSource = .ok wider ∧
        ((Machine.ofMemory wider.memory).run (some 3)).result = .ok 3 := by
  obtain ⟨alike, wide⟩ := runs_depend_on_reads
  have success : ∀ earlier < 3, ∃ status,
      ((Machine.ofMemory shiftingProgram.memory).stepped earlier).step.result = .ok status := by
    intro earlier bound
    obtain rfl | rfl | rfl : earlier = 0 ∨ earlier = 1 ∨ earlier = 2 := by omega
    · exact ⟨.running, by decide⟩
    · exact ⟨.running, by decide⟩
    · exact ⟨.halted, by decide⟩
  have same : ∀ address ∈ (Machine.ofMemory shiftingProgram.memory).readsWithin 3,
      shiftingOther.bytes[address]? = shiftingProgram.memory.bytes[address]? := by decide
  have assembled : Program.assemble none shiftingSource = .ok shiftingProgram := by cbv
  obtain ⟨results, -, change⟩ := alike (.ofMemory shiftingProgram.memory) 3 shiftingOther success (by decide) same
  obtain ⟨wider, assembledWider, -, halts, -⟩ :=
    wide shiftingSource shiftingProgram (some 3) 3 assembled (by decide) 16 (by decide)
  refine ⟨?_, ?_, assembled, wider, assembledWider, halts⟩
  · rw [results 2 (by decide)]
    decide
  · rw [change.otherKept 10 (by decide)]
    rfl

end WordMachine.Assembly
