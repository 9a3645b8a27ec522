import WordMachine.Proofs.Assembly.Acceptance
import WordMachine.Proofs.Memory.RoundTrip
import WordMachine.Proofs.Shell.CommandLines
import WordMachine.Proofs.Shell.Files
import WordMachine.Shell.Session

/-! # Images stand for their programs

A program that is assembled into a file and run from there runs as it does without the file: the image in the file is
read as the memory that the program is assembled into.  A program that is refused is refused either way, and no file
changes.  This holds of any libraries that keep to their documentation, and of any files that are read as they were
written.
-/

namespace WordMachine.Shell

open Assembly

/-- Libraries that keep to their documentation. -/
structure Libraries.Documented (libraries : Libraries) : Prop where
  codec : libraries.codec.Documented
  arguments : ReadsArguments libraries.readArguments
  /-- An error is told by what was to be done, and behind it by its causes. -/
  errors : ∃ told : List String → String, ∀ failure,
    libraries.describe failure = failure.context ++ told failure.causes

section Workspaces

variable {Files : Type} {source image text : String}

/-- A program in a file, and the name of another file that its image can be written to and read from. -/
structure Workspace (access : FileAccess Files) (files : Files) (source image text : String) : Prop where
  sourceName : IsFileName source
  imageName : IsFileName image
  reads : access.read files source = .ok text
  writes : ∀ content, ∃ after, access.write files image content = ⟨after, "", "", none⟩ ∧
    access.read after image = .ok content ∧ access.read after source = .ok text

/-- In a tree of directories the two files may stand anywhere, but not at one place. -/
theorem workspace_access {system : FileSystem} {place : Place} (sourceName : IsFileName source)
    (imageName : IsFileName image) (reads : system.read source = .ok text)
    (goes : system.target image = .ok (.file place)) (apart : system.locate source ≠ .ok place) :
    Workspace FileSystem.access system source image text where
  sourceName := sourceName
  imageName := imageName
  reads := congrArg (Except.mapError FileError.message) reads
  writes content := by
    refine ⟨system.put place content, ?_, ?_, ?_⟩
    · simp only [FileSystem.access, FileSystem.save, goes]
    · exact congrArg (Except.mapError FileError.message) (FileSystem.read_put goes)
    · exact congrArg (Except.mapError FileError.message) (FileSystem.read_put_of_ne goes reads apart)

end Workspaces

/-- Two responses about files with different names: the same apart from those names. -/
structure SameApartFromNames (first second : String) (one two : Response) : Prop where
  status : one.exitCode = two.exitCode
  output : one.stdout = two.stdout
  errors : (one.stderr = "" ∧ two.stderr = "") ∨
    ∃ report, one.stderr = "Error: " ++ first ++ report ∧ two.stderr = "Error: " ++ second ++ report

section Answers

variable {libraries : Libraries}

theorem lines_zero (line : Event → String) (events : List Event) : Event.lines line 0 events = "" := by
  have none : events.filter (fun event => event.level.verbosity ≤ 0) = [] := by
    rw [List.filter_eq_nil_iff]
    intro event _
    cases event.level <;> decide
  rw [Event.lines, none]
  rfl

/-- The response to a run of a memory, with no more detail than is always shown. -/
def runResponse (libraries : Libraries) (file : String) (memory : Memory) (maxSteps : Option Nat)
    (dump : Option Encoding) : Response :=
  (answerMemory libraries 0 file "" memory maxSteps dump).response libraries

/-- Runs of one memory differ only in the name of the file that a failure is reported with. -/
theorem runResponse_same (documented : libraries.Documented) (file other : String) (memory : Memory)
    (maxSteps : Option Nat) (dump : Option Encoding) :
    SameApartFromNames file other (runResponse libraries file memory maxSteps dump)
      (runResponse libraries other memory maxSteps dump) := by
  obtain ⟨told, spelled⟩ := documented.errors
  unfold runResponse answerMemory
  dsimp only
  generalize (Machine.ofMemory memory).run maxSteps = outcome
  obtain ⟨result, machine⟩ := outcome
  cases result with
  | ok steps => exact ⟨rfl, rfl, .inl ⟨rfl, rfl⟩⟩
  | error fault =>
      refine ⟨rfl, rfl, .inr ⟨s!" stopped at pc {machine.pc}" ++ told fault.messages ++ "\n", ?_, ?_⟩⟩
      all_goals simp [Answer.response, Answer.cutOff, Ending.report, spelled, toString, String.append_assoc]

theorem file_answerMemory (log file : String) (memory : Memory) (maxSteps : Option Nat) (dump : Option Encoding) :
    (answerMemory libraries 0 file log memory maxSteps dump).file = none := by
  unfold answerMemory
  dsimp only
  split
  · rfl
  · rfl

end Answers

section Sessions

variable {Files : Type} {libraries : Libraries} {access : FileAccess Files} {files : Files} {source image text : String}
  {memoryBytes maxSteps : Option Nat} {format : Encoding} {dump : Option Encoding} {program : Program} {fault : Fault}

/-- The response where a program is not assembled. -/
def refusal (libraries : Libraries) (source : String) (fault : Fault) : Response :=
  ⟨1, "", Ending.report libraries (.failed ⟨s!"failed to assemble {source}", fault.messages⟩)⟩

/-- A command whose answer has no file to be written leaves all files as they are. -/
theorem carryOut_of_no_file {words : List String} {invocation : Invocation} {answer : Answer}
    (read : libraries.readArguments words = .ok invocation)
    (reads : access.read files invocation.command.file = .ok text)
    (answers : invocation.answer libraries (.ok text) = answer) (none : answer.file = none) :
    carryOut libraries access words files = (answer.response libraries, files) := by
  simp only [carryOut, read, Invocation.perform, reads, answers, Answer.save, none]

theorem carryOut_of_cutOff {words : List String} {invocation : Invocation}
    (read : libraries.readArguments words = .ok invocation)
    (reads : access.read files invocation.command.file = .ok text)
    (answers : invocation.answer libraries (.ok text) =
      .cutOff "" (.failed ⟨s!"failed to assemble {source}", fault.messages⟩)) :
    carryOut libraries access words files = (refusal libraries source fault, files) := by
  rw [carryOut_of_no_file read reads answers rfl, Answer.response, Answer.cutOff, String.empty_append]
  rfl

/-- An image that was written to a file is run. -/
theorem carryOut_runImage (documented : libraries.Documented) {memory : Memory} (named : IsFileName image)
    (smallBudget : ∀ number ∈ maxSteps, number < numberBound)
    (reads : access.read files image = .ok (memory.toText libraries.codec format ++ "\n")) :
    carryOut libraries access (runImageWords image format.name maxSteps (dump.map Encoding.name)) files =
      (runResponse libraries image memory maxSteps dump, files) := by
  have read := documented.arguments.runImage named (names_name format) smallBudget (names_names dump)
  have loaded : decodeFile libraries.codec image (memory.toText libraries.codec format ++ "\n") format =
      .ok memory := by
    rw [decodeFile, Memory.ofText_toText_append_newline documented.codec]
    rfl
  refine carryOut_of_no_file read reads ?_ (file_answerMemory _ _ _ _ _)
  simp only [Invocation.answer, Command.file, answerRun, startMemory, loaded, lines_zero, Bool.false_eq_true, if_false]

theorem carryOut_runSource (documented : libraries.Documented) (named : IsFileName source)
    (smallMemory : ∀ number ∈ memoryBytes, number < numberBound)
    (smallBudget : ∀ number ∈ maxSteps, number < numberBound) (reads : access.read files source = .ok text)
    (accepted : Program.outcome memoryBytes text = .accepted program) :
    carryOut libraries access (runSourceWords source memoryBytes maxSteps (dump.map Encoding.name)) files =
      (runResponse libraries source program.memory maxSteps dump, files) := by
  have read := documented.arguments.runSource named smallMemory smallBudget (names_names dump)
  refine carryOut_of_no_file read reads ?_ (file_answerMemory _ _ _ _ _)
  simp only [Invocation.answer, Command.file, answerRun, startMemory, assembleFile, accepted, Except.map, lines_zero,
    if_true]

theorem carryOut_assemble (documented : libraries.Documented) (workspace : Workspace access files source image text)
    (smallMemory : ∀ number ∈ memoryBytes, number < numberBound)
    (accepted : Program.outcome memoryBytes text = .accepted program) :
    ∃ after, carryOut libraries access (assembleWords source image format.name memoryBytes) files =
        (⟨0, "", ""⟩, after) ∧
      access.read after image = .ok (program.memory.toText libraries.codec format ++ "\n") ∧
      access.read after source = .ok text := by
  have read := documented.arguments.assemble workspace.sourceName workspace.imageName (names_name format) smallMemory
  obtain ⟨after, written, back, kept⟩ := workspace.writes (program.memory.toText libraries.codec format ++ "\n")
  refine ⟨after, ?_, back, kept⟩
  simp [carryOut, read, Invocation.perform, Invocation.answer, Command.file, workspace.reads, answerAssemble,
    assembleFile, accepted, Answer.save, written, lines_zero, Answer.response, Ending.report, Ending.exitCode]

theorem carryOut_assemble_refused (documented : libraries.Documented)
    (workspace : Workspace access files source image text)
    (smallMemory : ∀ number ∈ memoryBytes, number < numberBound)
    (refused : Program.outcome memoryBytes text = .rejected fault) :
    carryOut libraries access (assembleWords source image format.name memoryBytes) files =
      (refusal libraries source fault, files) := by
  have read := documented.arguments.assemble workspace.sourceName workspace.imageName (names_name format) smallMemory
  refine carryOut_of_cutOff read workspace.reads ?_
  simp only [Invocation.answer, Command.file, answerAssemble, assembleFile, refused, lines_zero]

theorem carryOut_runSource_refused (documented : libraries.Documented) (named : IsFileName source)
    (smallMemory : ∀ number ∈ memoryBytes, number < numberBound)
    (smallBudget : ∀ number ∈ maxSteps, number < numberBound) (reads : access.read files source = .ok text)
    (refused : Program.outcome memoryBytes text = .rejected fault) :
    carryOut libraries access (runSourceWords source memoryBytes maxSteps (dump.map Encoding.name)) files =
      (refusal libraries source fault, files) := by
  have read := documented.arguments.runSource named smallMemory smallBudget (names_names dump)
  refine carryOut_of_cutOff read reads ?_
  simp only [Invocation.answer, Command.file, answerRun, startMemory, assembleFile, refused, Except.map, lines_zero,
    if_true]

/-- A program that is assembled into a file and run from there is run as it is without the file, for any encoding of the
    file.  A program that cannot be assembled is refused either way, and no file changes. -/
theorem image_runs_as_source (documented : libraries.Documented) (workspace : Workspace access files source image text)
    (format : Encoding) (dump : Option Encoding) (smallMemory : ∀ number ∈ memoryBytes, number < numberBound)
    (smallBudget : ∀ number ∈ maxSteps, number < numberBound) :
    let assembling := assembleWords source image format.name memoryBytes
    let runningImage := runImageWords image format.name maxSteps (dump.map Encoding.name)
    let runningSource := runSourceWords source memoryBytes maxSteps (dump.map Encoding.name)
    (∀ program, Program.outcome memoryBytes text = .accepted program →
      ∃ said after, carryOut libraries access assembling files = (said, after) ∧ said.exitCode = 0 ∧
        access.read after image = .ok (program.memory.toText libraries.codec format ++ "\n") ∧
        ∃ ran direct, carryOut libraries access runningImage after = (ran, after) ∧
          (∀ state ∈ [files, after], carryOut libraries access runningSource state = (direct, state)) ∧
          SameApartFromNames image source ran direct) ∧
    ∀ fault, Program.outcome memoryBytes text = .rejected fault →
      ∃ said direct, carryOut libraries access assembling files = (said, files) ∧
        carryOut libraries access runningSource files = (direct, files) ∧
        said.exitCode = 1 ∧ said.stdout = "" ∧ direct.exitCode = 1 ∧ direct.stdout = "" := by
  intro assembling runningImage runningSource
  have sourceName := workspace.sourceName
  constructor
  · intro program accepted
    obtain ⟨after, assembled, written, kept⟩ := carryOut_assemble documented workspace smallMemory accepted
    refine ⟨_, after, assembled, rfl, written, _, _,
      carryOut_runImage documented workspace.imageName smallBudget written, ?_,
      runResponse_same documented image source program.memory maxSteps dump⟩
    simp only [List.forall_mem_cons, List.not_mem_nil, false_implies, implies_true, and_true]
    exact ⟨carryOut_runSource documented sourceName smallMemory smallBudget workspace.reads accepted,
      carryOut_runSource documented sourceName smallMemory smallBudget kept accepted⟩
  · intro fault refused
    exact ⟨_, _, carryOut_assemble_refused documented workspace smallMemory refused,
      carryOut_runSource_refused documented sourceName smallMemory smallBudget workspace.reads refused,
      rfl, rfl, rfl, rfl⟩

theorem documented_standard : standard.Documented where
  codec := Base64Url.documented_codec
  arguments := readsArguments_standard
  errors := ⟨fun causes => "\n\nCaused by:\n" ++ "\n".intercalate (causeLines causes), fun _ =>
    String.append_assoc⟩

/-- A program that loads a number and halts. -/
def loadingText : String := "load R0, #7\nhalt"

/-- The program in memory with a byte behind it. -/
def loadingProgram : Program :=
  ⟨[⟨[], .binary .load .r0 (.immediate 7), 0⟩, ⟨[], .nullary .halt, 3⟩], [], .ofBytes [0x41, 0, 7, 0x10, 0]⟩

/-- A working directory with the program in it. -/
def loadingFiles : FileSystem := ⟨[(.inside ["p"], loadingText)]⟩

theorem workspace_loadingFiles : Workspace FileSystem.access loadingFiles "p" "q" loadingText := by
  have source : loadingFiles.locate "p" = .ok (.inside ["p"]) := by cbv
  have image : loadingFiles.locate "q" = .ok (.inside ["q"]) := by cbv
  have reads : loadingFiles.read "p" = .ok loadingText :=
    FileSystem.read_eq_ok_iff.2 ⟨by decide, _, source, .inl (by decide)⟩
  have goes : loadingFiles.target "q" = .ok (.file (.inside ["q"])) :=
    FileSystem.target_eq_file_iff.2 ⟨by decide, image, .inl (by decide)⟩
  exact workspace_access ⟨by decide, by decide⟩ ⟨by decide, by decide⟩ reads goes (by rw [source]; simp)

theorem image_runs_as_source_load :
    standard.Documented ∧ Workspace FileSystem.access loadingFiles "p" "q" loadingText ∧
      Program.outcome (some 5) loadingText = .accepted loadingProgram ∧
      ∃ said after, carryOut standard FileSystem.access (assembleWords "p" "q" "base64url" (some 5)) loadingFiles =
          (said, after) ∧ said.exitCode = 0 ∧ FileSystem.access.read after "q" = .ok "QQAHEAA\n" ∧
        ∃ ran direct,
          carryOut standard FileSystem.access (runImageWords "q" "base64url" (some 2) (some "hexadecimal")) after =
            (ran, after) ∧
          (∀ state ∈ [loadingFiles, after],
            carryOut standard FileSystem.access (runSourceWords "p" (some 5) (some 2) (some "hexadecimal")) state =
              (direct, state)) ∧
          SameApartFromNames "q" "p" ran direct ∧
          ran = ⟨0, "halted after 2 steps at pc 4: R0=7 R1=0 R2=0\n41\n00\n07\n10\n00\n", ""⟩ := by
  have memory : ∀ number ∈ some 5, number < numberBound := by simp [numberBound, UInt64.size]
  have budget : ∀ number ∈ some 2, number < numberBound := by simp [numberBound, UInt64.size]
  have addressable : Addressable (some 5) loadingText := fun _ _ _ _ => (by decide : 5 < 2 ^ 61)
  have assembled : Program.assemble (some 5) loadingText = .ok loadingProgram := by cbv
  have accepted : Program.outcome (some 5) loadingText = .accepted loadingProgram := by
    rw [outcome_of_addressable addressable, assembled]
  obtain ⟨runs, -⟩ := image_runs_as_source documented_standard workspace_loadingFiles .base64Url
    (some (.digits .hexadecimal)) memory budget
  obtain ⟨said, after, saved, success, written, ran, direct, run, others, same⟩ := runs _ accepted
  have image : loadingProgram.memory.toText standard.codec .base64Url ++ "\n" = "QQAHEAA\n" := by decide +kernel
  have shown : runResponse standard "q" loadingProgram.memory (some 2) (some (.digits .hexadecimal)) =
      ⟨0, "halted after 2 steps at pc 4: R0=7 R1=0 R2=0\n41\n00\n07\n10\n00\n", ""⟩ := by decide +kernel
  have answered := @carryOut_runImage _ standard FileSystem.access after "q" (some 2) .base64Url
    (some (.digits .hexadecimal)) documented_standard loadingProgram.memory workspace_loadingFiles.imageName budget
    written
  refine ⟨documented_standard, workspace_loadingFiles, accepted, said, after, saved, success, image ▸ written, ran,
    direct, run, others, same, ?_⟩
  rw [← shown]
  exact (Prod.mk.inj (run.symm.trans answered)).1

end Sessions

end WordMachine.Shell
