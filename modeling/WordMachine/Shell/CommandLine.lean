import WordMachine.Shell.Arguments
import WordMachine.Shell.Command

/-! # Command lines

How the words of a command line are read as a command.
-/

namespace WordMachine.Shell

def numberBound : Nat := UInt64.size

/-- A number as an argument: digits, with or without a plus sign in front. -/
def readNumber (text : String) : Option Nat :=
  let digits := match text.toList with
    | '+' :: rest => rest
    | digits => digits
  if digits ≠ [] ∧ digits.all Char.isDigit ∧ Radix.decimal.valueOf digits < numberBound then
    some (Radix.decimal.valueOf digits)
  else none

def readEncoding (text : String) : Option Encoding := (Encoding.ofName? text).toOption

def readFile (text : String) : Option String := if text = "" then none else some text

def verbose : OptionKind := ⟨"verbose", some 'v', .flag⟩

def version : OptionKind := ⟨"version", some 'V', .final⟩

def help : OptionKind := ⟨"help", some 'h', .final⟩

def assembleOptions : List OptionKind :=
  [verbose, ⟨"output", some 'o', .setting⟩, ⟨"format", some 'f', .setting⟩,
   ⟨"memory-bytes", none, .setting⟩, ⟨"listing", none, .flag⟩]

def runOptions : List OptionKind :=
  [verbose, ⟨"format", some 'f', .setting⟩, ⟨"source", none, .flag⟩,
   ⟨"memory-bytes", none, .setting⟩, ⟨"max-steps", none, .setting⟩, ⟨"dump", none, .setting⟩]

def dumpOptions : List OptionKind := [verbose, ⟨"from", none, .setting⟩, ⟨"to", none, .setting⟩]

def readOnlyFile (arguments : List Argument) : Option String :=
  match Argument.plains arguments with
  | [file] => readFile file
  | _ => none

def readAssemble (arguments : List Argument) : Option Command := do
  let file ← readOnlyFile arguments
  let output ← Argument.value? "output" readFile arguments
  let encoding ← Argument.value? "format" readEncoding arguments
  let memoryBytes ← Argument.value? "memory-bytes" readNumber arguments
  let listing ← Argument.once? "listing" arguments
  return .assemble file output (encoding.getD .standard) memoryBytes listing

/-- The command `run` with given arguments; only a program can be given a size of memory. -/
def readRun (arguments : List Argument) : Option Command := do
  let file ← readOnlyFile arguments
  let encoding ← Argument.value? "format" readEncoding arguments
  let source ← Argument.once? "source" arguments
  let memoryBytes ← Argument.value? "memory-bytes" readNumber arguments
  let maxSteps ← Argument.value? "max-steps" readNumber arguments
  let dump ← Argument.value? "dump" readEncoding arguments
  if memoryBytes.isSome && !source then none
  return .run file (encoding.getD .standard) source memoryBytes maxSteps dump

def readDump (arguments : List Argument) : Option Command := do
  let file ← readOnlyFile arguments
  let source ← Argument.value? "from" readEncoding arguments
  let target ← Argument.value? "to" readEncoding arguments
  return .dump file (source.getD .standard) target

/-- What a command line starts with. -/
inductive Front where
  /-- The question which program this is; what follows does not matter. -/
  | version
  /-- The question how it is used; what follows does not matter. -/
  | help
  /-- Requests for more detail, and then words of which the first is not an option. -/
  | command (verbosity : Nat) (words : List String)
  deriving Repr, DecidableEq, BEq

/-- The options in front of a command's name. -/
def readFront : List String → Option Front
  | [] => none
  | word :: rest =>
      match word.toList with
      | '-' :: _ :: _ => do
          let (arguments, _) ← readWord [verbose, version, help] word
          if 0 < Argument.count version.name arguments then return .version
          if 0 < Argument.count help.name arguments then return .help
          match ← readFront rest with
          | .command verbosity words =>
              return .command (Argument.count verbose.name arguments + verbosity) words
          | question => return question
      | _ => some (.command 0 (word :: rest))

/-- The command of words that start with its name.  Requests for more detail behind the name count, or else
    those in front of it. -/
def readCommand (front : Nat) (words : List String) : Option Invocation :=
  let invoke (options : List OptionKind) (read : List Argument → Option Command) (words : List String) := do
    let arguments ← readWords options none words
    let command ← read arguments
    let behind := Argument.count verbose.name arguments
    return ⟨command, if behind = 0 then front else behind⟩
  match words with
  | "assemble" :: rest => invoke assembleOptions readAssemble rest
  | "run" :: rest => invoke runOptions readRun rest
  | "dump" :: rest => invoke dumpOptions readDump rest
  | _ => none

/-- Whether words that start with the name of a command ask how it is used. -/
def asksForHelp : List String → Bool
  | "help" :: _ => true
  | name :: word :: _ => name ∈ ["assemble", "run", "dump"] && word ∈ ["--help", "-h"]
  | _ => false

inductive Request where
  | version
  | help
  | command (invocation : Invocation)
  deriving Repr, DecidableEq, BEq

/-- What a command line asks for, if it is in order. -/
def readRequest (words : List String) : Option Request := do
  match ← readFront words with
  | .version => return .version
  | .help => return .help
  | .command verbosity words =>
      if asksForHelp words then return .help
      return .command (← readCommand verbosity words)

end WordMachine.Shell
