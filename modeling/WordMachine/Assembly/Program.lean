import WordMachine.Assembly.Grammar
import WordMachine.Assembly.Image

/-! # Assembled programs

From the text of a program to its memory image, and the listing that shows every instruction at its address.
-/

namespace WordMachine.Assembly

structure Program where
  instructions : List Instruction
  labels : LabelTable
  memory : Memory
  deriving Repr, DecidableEq

namespace Program

/-- The memory of a program before it is written: of the size that is asked for, or else of the size that the
    program needs. -/
def blankMemory (memoryBytes : Option Nat) (instructions : List Instruction) : Memory :=
  .zeroed (memoryBytes.getD (programSize instructions))

/-- Assembles a text into memory of a given size, or else into just as much as it needs. -/
def assemble (memoryBytes : Option Nat) (source : String) : Except Fault Program := do
  let statements ← Grammar.parse source
  let layout ← layout statements
  let written := writeAll layout.instructions (blankMemory memoryBytes layout.instructions)
  match written.fault with
  | some fault => .error fault
  | none => return ⟨layout.instructions, layout.labels, written.memory⟩

/-- Whether there can be a memory of the size that a program is written into. -/
def fits (memoryBytes : Option Nat) (instructions : List Instruction) : Bool :=
  memoryBytes.getD (programSize instructions) < Memory.sizeBound

/-- How assembling ends. -/
inductive Outcome where
  | accepted (program : Program)
  | rejected (fault : Fault)
  /-- All work ends, with a message. -/
  | panicked (message : String)
  deriving Repr, DecidableEq

/-- What comes of assembling where memory has a bound and arithmetic is checked. -/
def outcome (memoryBytes : Option Nat) (source : String) : Outcome :=
  match Grammar.parse source >>= layout with
  | .error fault => .rejected fault
  | .ok layout =>
      -- The memory is made before anything is written, so no fault of the writing comes first.
      if fits memoryBytes layout.instructions then
        match assemble memoryBytes source with
        | .ok program => .accepted program
        | .error .overflow => .panicked Fault.overflow.message
        | .error fault => .rejected fault
      else .panicked "capacity overflow"

def labelAddress? (program : Program) (label : String) : Option Nat := program.labels.address? label

def listing (program : Program) : String :=
  String.join (program.instructions.map fun instruction => instruction.text ++ "\n")

def assembleEvents (memoryBytes : Option Nat) (source : String) : List Event :=
  match Grammar.parse source with
  | .error _ => []
  | .ok statements =>
      let writeReport := match layout statements with
        | .error _ => []
        | .ok layout =>
            if fits memoryBytes layout.instructions then
              writeEvents layout.instructions (blankMemory memoryBytes layout.instructions)
            else []
      Grammar.readEvents statements ++ layoutEvents statements ++ writeReport

variable {memoryBytes : Option Nat} {source : String}

/-- A text is assembled if it can be read, laid out and written. -/
theorem assemble_eq_ok_iff {program : Program} :
    assemble memoryBytes source = .ok program ↔
      ∃ statements, Grammar.parse source = .ok statements ∧
        layout statements = .ok ⟨program.instructions, program.labels⟩ ∧
        writeAll program.instructions (blankMemory memoryBytes program.instructions) = ⟨program.memory, none⟩ := by
  unfold assemble
  cases Grammar.parse source with
  | error fault => simp [bind, Except.bind]
  | ok statements =>
      simp only [bind, Except.bind, Except.ok.injEq, exists_eq_left']
      cases layout statements with
      | error fault => simp
      | ok result =>
          cases stopped : (writeAll result.instructions (blankMemory memoryBytes result.instructions)).fault with
          | some fault =>
              simp only [stopped, reduceCtorEq, Except.ok.injEq, false_iff, not_and]
              rintro rfl written
              simp [written] at stopped
          | none =>
              obtain ⟨instructions, labels, image⟩ := program
              simp only [stopped, pure, Except.pure, Except.ok.injEq, Program.mk.injEq]
              constructor
              · rintro ⟨rfl, rfl, rfl⟩
                exact ⟨rfl, congrArg (Written.mk _) stopped⟩
              · rintro ⟨rfl, written⟩
                exact ⟨rfl, rfl, congrArg Written.memory written⟩

/-- A text is refused for the first of the three that fails. -/
theorem assemble_eq_error_iff {fault : Fault} :
    assemble memoryBytes source = .error fault ↔
      Grammar.parse source = .error fault ∨ ∃ statements, Grammar.parse source = .ok statements ∧
        (layout statements = .error fault ∨ ∃ result, layout statements = .ok result ∧
          (writeAll result.instructions (blankMemory memoryBytes result.instructions)).fault = some fault) := by
  unfold assemble
  cases Grammar.parse source with
  | error fault => simp [bind, Except.bind]
  | ok statements =>
      simp only [bind, Except.bind, Except.ok.injEq, exists_eq_left', reduceCtorEq, false_or]
      cases layout statements with
      | error fault => simp
      | ok result =>
          cases stopped : (writeAll result.instructions (blankMemory memoryBytes result.instructions)).fault <;>
            simp [stopped, pure, Except.pure]

end Program

end WordMachine.Assembly
