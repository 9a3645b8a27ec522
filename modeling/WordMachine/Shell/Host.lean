import WordMachine.Event
import WordMachine.Shell.Command

/-! # Libraries and files

What a session is given: the libraries that read command lines, spell errors and events and write Base64, and the
files of the system that it runs on.  They are parameters of a session, which can be carried out with any of them.
-/

namespace WordMachine.Shell

/-- Why a command fails: what was to be done, and the texts of the errors that kept it from being done, from
    the outermost to the one beneath all others. -/
structure Failure where
  context : String
  causes : List String
  deriving Repr, DecidableEq, BEq

/-- What can be seen of a session: the number that it ends with, and the text on the two output channels. -/
structure Response where
  exitCode : Nat
  stdout : String
  stderr : String
  deriving Repr, DecidableEq, BEq

structure Libraries where
  codec : Base64Url.Codec
  /-- What a command line asks for, or the response with which the library ends the session itself. -/
  readArguments : List String → Except Response Invocation
  /-- The text of an error that a session ends with. -/
  describe : Failure → String
  logLine : Event → String
  /-- What is said of a panic with a message. -/
  panicNotice : String → String

/-- What is left where a text was to be written under a name.  The name may stand for an output channel. -/
structure Saved (Files : Type) where
  files : Files
  stdout : String
  stderr : String
  /-- The text of the error that kept the text from being written. -/
  error : Option String

/-- Files that are read and written by name. -/
structure FileAccess (Files : Type) where
  /-- The text of a file, or that of the error that kept it from being read. -/
  read : Files → String → Except String String
  write : Files → String → String → Saved Files

end WordMachine.Shell
