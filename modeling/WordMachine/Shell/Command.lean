import WordMachine.Memory.Encoding

/-! # Commands

What a command line asks for: to assemble a program, to run one, or to show a memory image.
-/

namespace WordMachine.Shell

inductive Command where
  /-- Assembles a program and writes its image to a file, or shows it. -/
  | assemble (file : String) (output : Option String) (format : Encoding) (memoryBytes : Option Nat)
      (listing : Bool)
  /-- Runs a machine, for a limited number of steps or until it halts, and then shows its memory if there is
      an encoding for it.  The file is a memory image, or a program that is assembled first. -/
  | run (file : String) (format : Encoding) (source : Bool) (memoryBytes maxSteps : Option Nat)
      (dump : Option Encoding)
  /-- Shows a memory image in another encoding, or else as a dump. -/
  | dump (file : String) (format : Encoding) (target : Option Encoding)
  deriving Repr, DecidableEq, BEq

def Command.file : Command → String
  | .assemble file .. | .run file .. | .dump file .. => file

/-- A command, and how often more detail is asked for. -/
structure Invocation where
  command : Command
  verbosity : Nat
  deriving Repr, DecidableEq, BEq

end WordMachine.Shell
