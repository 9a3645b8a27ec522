/-! # Arguments of a command line

How the words of a command line are told apart: options by a long name behind two dashes or a letter behind
one, their values, and all else.  Letters may share one dash.  A value follows as the next word, or behind `=`,
or directly behind a letter.  A word `--` ends the options.
-/

namespace WordMachine.Shell

/-- What an option does with the words behind it. -/
inductive OptionRole where
  | flag
  | setting
  /-- It stands alone, and nothing behind it is read any more. -/
  | final
  deriving Repr, DecidableEq, BEq

structure OptionKind where
  name : String
  letter : Option Char
  role : OptionRole
  deriving Repr, DecidableEq, BEq

/-- What a word of the command line is, or two words together. -/
inductive Argument where
  | plain (word : String)
  | flag (name : String)
  | setting (name value : String)
  deriving Repr, DecidableEq, BEq

/-- Letters that share a dash: what they say, and the option that takes the next word as its value. -/
def readLetters (kinds : List OptionKind) : List Char → Option (List Argument × Option String)
  | [] => some ([], none)
  | letter :: rest =>
      match kinds.find? (·.letter = some letter) with
      | none => none
      | some kind =>
          match kind.role with
          | .setting =>
              match rest with
              | [] => some ([], some kind.name)
              | '=' :: value | value => some ([.setting kind.name (String.ofList value)], none)
          | .final => some ([.flag kind.name], none)
          | .flag => do
              let (arguments, waiting) ← readLetters kinds rest
              return (.flag kind.name :: arguments, waiting)

/-- A long option with what may follow it behind `=`: what it says, and the option that takes the next word as
    its value. -/
def readLong (kinds : List OptionKind) (text : List Char) : Option (List Argument × Option String) :=
  let name := String.ofList (text.takeWhile (· ≠ '='))
  match kinds.find? (·.name = name), text.dropWhile (· ≠ '=') with
  | none, _ => none
  | some kind, [] => if kind.role = .setting then some ([], some name) else some ([.flag name], none)
  | some kind, _ :: value =>
      if kind.role = .setting then some ([.setting name (String.ofList value)], none) else none

/-- One word: what it says, and the option that takes the next word as its value.  A single dash is no
    option. -/
def readWord (kinds : List OptionKind) (word : String) : Option (List Argument × Option String) :=
  match word.toList with
  | '-' :: '-' :: text => readLong kinds text
  | '-' :: letter :: letters => readLetters kinds (letter :: letters)
  | _ => some ([.plain word], none)

/-- Whether a word can stand as the value of an option. -/
def isValue (word : String) : Bool :=
  word.toList.head? ≠ some '-' || word = "-"

/-- The arguments that the words of a command line make up; `waiting` is the option that takes the first word
    as its value. -/
def readWords (kinds : List OptionKind) (waiting : Option String) : List String → Option (List Argument)
  | [] => if waiting.isNone then some [] else none
  | word :: rest =>
      match waiting with
      | some name => do
          if isValue word then
            return .setting name word :: (← readWords kinds none rest)
          none
      | none =>
          if word = "--" then some (rest.map .plain)
          else do
            let (arguments, waiting) ← readWord kinds word
            return arguments ++ (← readWords kinds waiting rest)

namespace Argument

def plains (arguments : List Argument) : List String :=
  arguments.filterMap fun
    | plain word => some word
    | _ => none

def count (name : String) (arguments : List Argument) : Nat := arguments.count (flag name)

def values (name : String) (arguments : List Argument) : List String :=
  arguments.filterMap fun
    | setting other value => if other = name then some value else none
    | _ => none

/-- Whether a flag is given, which may happen once. -/
def once? (name : String) (arguments : List Argument) : Option Bool :=
  match count name arguments with
  | 0 => some false
  | 1 => some true
  | _ => none

/-- The value of an option that may be given once, read by `read`. -/
def value? {α : Type} (name : String) (read : String → Option α) (arguments : List Argument) :
    Option (Option α) :=
  match values name arguments with
  | [] => some none
  | [value] => (read value).map some
  | _ => none

end Argument

end WordMachine.Shell
