import WordMachine.Assembly.Program
import WordMachine.Machine.Run
import WordMachine.Memory.Dump
import WordMachine.Shell.Host

/-! # Sessions

What a command answers: text on the two output channels, a file to be written, and how it ends.  A command reads
one file.  What it answers is a function of the text of that file.
-/

namespace WordMachine.Shell

inductive Ending where
  | done
  | failed (failure : Failure)
  | panicked (message : String)
  deriving Repr, DecidableEq, BEq

namespace Ending

def exitCode : Ending → Nat
  | done => 0
  | failed _ => 1
  | panicked _ => 101

def report (libraries : Libraries) : Ending → String
  | done => ""
  | failed failure => s!"Error: {libraries.describe failure}\n"
  | panicked message => libraries.panicNotice message

end Ending

structure Answer where
  stdout : String
  stderr : String
  /-- The name of the file and its text. -/
  file : Option (String × String)
  ending : Ending
  deriving Repr, DecidableEq, BEq

namespace Answer

/-- The answer that an ending cuts off; all that was said before stays. -/
def cutOff (stdout : String) (ending : Ending) : Answer := ⟨stdout, "", none, ending⟩

def ofText (stdout stderr : String) : Answer := ⟨stdout, stderr, none, .done⟩

def response (libraries : Libraries) (answer : Answer) : Response :=
  ⟨answer.ending.exitCode, answer.stdout, answer.stderr ++ answer.ending.report libraries⟩

/-- The answer if its file cannot be written. -/
def withoutFile (answer : Answer) (name error : String) : Answer :=
  { answer with ending := .failed ⟨s!"failed to write {name}", [error]⟩ }

end Answer

def eventSource : String := "minicomp"

def assemblyEvents (file source : String) (memoryBytes : Option Nat) : List Event :=
  let report := match Assembly.Program.outcome memoryBytes source with
    | .accepted program => [⟨.info, eventSource, s!"assembled {file} into {program.memory.size} bytes"⟩]
    | _ => []
  Assembly.Program.assembleEvents memoryBytes source ++ report

def assembleFile (file source : String) (memoryBytes : Option Nat) : Except Ending Assembly.Program :=
  match Assembly.Program.outcome memoryBytes source with
  | .accepted program => .ok program
  | .rejected fault => .error (.failed ⟨s!"failed to assemble {file}", fault.messages⟩)
  | .panicked message => .error (.panicked message)

def decodeFile (codec : Base64Url.Codec) (file text : String) (format : Encoding) : Except Ending Memory :=
  (Memory.ofText codec format text).mapError fun fault =>
    .failed ⟨s!"failed to decode {file} as {format.name}", fault.messages⟩

def haltLine (steps : Nat) (machine : Machine) : String :=
  let registers := machine.registers
  s!"halted after {steps} steps at pc {machine.pc}: " ++
    s!"R0={registers.r0} R1={registers.r1} R2={registers.r2}\n"

section Answers

variable (libraries : Libraries) (verbosity : Nat) (file text : String)

def answerAssemble (output : Option String) (format : Encoding) (memoryBytes : Option Nat) (listing : Bool) :
    Answer :=
  let log := Event.lines libraries.logLine verbosity (assemblyEvents file text memoryBytes)
  match assembleFile file text memoryBytes with
  | .error ending => .cutOff log ending
  | .ok program =>
      let image := program.memory.toText libraries.codec format ++ "\n"
      let listed := if listing then program.listing else ""
      match output with
      | some name => ⟨log, listed, some (name, image), .done⟩
      | none => .ofText (log ++ image) listed

/-- What is answered to a run of a memory, behind what was said until it was there. -/
def answerMemory (log : String) (memory : Memory) (maxSteps : Option Nat) (dump : Option Encoding) : Answer :=
  let machine := Machine.ofMemory memory
  let runLog :=
    if verbosity < Level.verbosity .debug then ""
    else Event.lines libraries.logLine verbosity (machine.runEvents maxSteps)
  let outcome := machine.run maxSteps
  match outcome.result with
  | .error fault =>
      .cutOff (log ++ runLog) (.failed ⟨s!"{file} stopped at pc {outcome.machine.pc}", fault.messages⟩)
  | .ok steps =>
      let shown := match dump with
        | some encoding => outcome.machine.memory.toText libraries.codec encoding ++ "\n"
        | none => ""
      .ofText (log ++ runLog ++ haltLine steps outcome.machine ++ shown) ""

/-- The memory of a run, and what is reported until it is there. -/
def startMemory (format : Encoding) (source : Bool) (memoryBytes : Option Nat) : Except Ending Memory × List Event :=
  if source then
    ((assembleFile file text memoryBytes).map (·.memory), assemblyEvents file text memoryBytes)
  else (decodeFile libraries.codec file text format, [])

def answerRun (format : Encoding) (source : Bool) (memoryBytes maxSteps : Option Nat) (dump : Option Encoding) :
    Answer :=
  let (memory, events) := startMemory libraries file text format source memoryBytes
  let log := Event.lines libraries.logLine verbosity events
  match memory with
  | .error ending => .cutOff log ending
  | .ok memory => answerMemory libraries verbosity file log memory maxSteps dump

def answerDump (format : Encoding) (target : Option Encoding) : Answer :=
  match decodeFile libraries.codec file text format with
  | .error ending => .cutOff "" ending
  | .ok memory =>
      let shown := match target with
        | some encoding => memory.toText libraries.codec encoding
        | none => memory.dump
      .ofText (shown ++ "\n") ""

end Answers

/-- What a command answers, given what the reading of its file gives. -/
def Invocation.answer (libraries : Libraries) (invocation : Invocation) (content : Except String String) : Answer :=
  let file := invocation.command.file
  match content with
  | .error error => .cutOff "" (.failed ⟨s!"failed to read {file}", [error]⟩)
  | .ok text =>
      match invocation.command with
      | .assemble _ output format memoryBytes listing =>
          answerAssemble libraries invocation.verbosity file text output format memoryBytes listing
      | .run _ format source memoryBytes maxSteps dump =>
          answerRun libraries invocation.verbosity file text format source memoryBytes maxSteps dump
      | .dump _ format target => answerDump libraries file text format target

section Files

variable {Files : Type}

/-- Writes the file that an answer asks for: the answer as it is then, and the files afterwards. -/
def Answer.save (answer : Answer) (access : FileAccess Files) (files : Files) : Answer × Files :=
  match answer.file with
  | none => (answer, files)
  | some (name, text) =>
      let saved := access.write files name text
      -- Whatever was said before stands in front of the text.
      let shown := { answer with stdout := answer.stdout ++ saved.stdout, stderr := answer.stderr ++ saved.stderr }
      match saved.error with
      | none => (shown, saved.files)
      | some error => (shown.withoutFile name error, saved.files)

/-- Carries out a command: what is seen of it, and the files afterwards. -/
def Invocation.perform (libraries : Libraries) (access : FileAccess Files) (invocation : Invocation) (files : Files) :
    Response × Files :=
  let answer := invocation.answer libraries (access.read files invocation.command.file)
  let (answer, files) := answer.save access files
  (answer.response libraries, files)

/-- What the words of a command line do: what is seen of it, and the files afterwards. -/
def carryOut (libraries : Libraries) (access : FileAccess Files) (words : List String) (files : Files) :
    Response × Files :=
  match libraries.readArguments words with
  | .error response => (response, files)
  | .ok invocation => invocation.perform libraries access files

end Files

end WordMachine.Shell
