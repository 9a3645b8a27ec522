import WordMachine.Shell.Session
import WordMachine.Shell.Standard

/-! # The command line

Reads the file that a command works on, shows the answer and writes the file that the answer asks for.
-/

namespace WordMachine.Shell

/-- The number of an error, which some calls of the system give with its sign turned. -/
def errorNumber (code : UInt32) : UInt32 := min code (0 - code)

def FileError.ofSystem (error : IO.Error) : FileError :=
  match error with
  | .noFileOrDirectory .. => .missing
  | .inappropriateType _ code _ => if errorNumber code = 20 then .notDirectory else .isDirectory
  | .invalidArgument _ code _ => if errorNumber code = 36 then .nameTooLong else .other error.toString
  | .resourceExhausted _ code _ =>
      if errorNumber code = 28 then .noSpace else .other error.toString
  | error => .other error.toString

def readText (name : String) : IO (Except FileError String) := do
  match ← (IO.FS.readBinFile name).toBaseIO with
  | .error error => return .error (.ofSystem error)
  | .ok bytes =>
      match String.fromUTF8? bytes with
      | some text => return .ok text
      | none => return .error .notText

/-- Writes the file of an answer: the answer as it is then. -/
def writeText (answer : Answer) : IO Answer := do
  match answer.file with
  | none => return answer
  | some (name, text) =>
      let written : IO Unit := IO.FS.withFile name .write fun file => do
        file.putStr text
        file.flush
      match ← written.toBaseIO with
      | .ok _ => return answer
      | .error error => return answer.withoutFile name (FileError.ofSystem error).message

/-- Shows an answer and writes its file.  What the answer says comes first, since the file may be one of the
    channels. -/
def deliver (libraries : Libraries) (answer : Answer) : IO UInt32 := do
  IO.print answer.stdout
  IO.eprint answer.stderr
  (← IO.getStdout).flush
  let answer ← writeText answer
  IO.eprint (answer.ending.report libraries)
  return UInt32.ofNat answer.ending.exitCode

def runCommand (libraries : Libraries) (words : List String) : IO UInt32 := do
  match libraries.readArguments words with
  | .error response =>
      IO.print response.stdout
      IO.eprint response.stderr
      return UInt32.ofNat response.exitCode
  | .ok invocation =>
      let content ← readText invocation.command.file
      deliver libraries (invocation.answer libraries (content.mapError FileError.message))

end WordMachine.Shell

def main (words : List String) : IO UInt32 := WordMachine.Shell.runCommand WordMachine.Shell.standard words
