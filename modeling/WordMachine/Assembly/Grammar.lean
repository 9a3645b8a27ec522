import WordMachine.Assembly.Fault
import WordMachine.Assembly.Statement
import WordMachine.Event
import WordMachine.Parsing.Parser
import WordMachine.Text.Blank

/-! # The grammar of assembly text

A program is a list of statements with blanks and comments between them; a comment starts with `;` and ends
with its line.  A statement is any number of labels and then an instruction:

    @loop: add R1, #1     ; operation, register, argument
           jmz R2, @done
           jmp @loop      ; operation, argument
    @done  halt           ; operation
           mem 255        ; a byte of data

An argument is `R0`, a number behind `#`, an address, or a label.  Operations and registers may be written in
any case.
-/

namespace WordMachine.Assembly.Grammar

open Parsing Parser

def isWord (c : Char) : Bool := c.isAlphanum || c = '_'

def literalBound : Nat := UInt64.size

def keyword (spellings : List String) : Parser (List Char) :=
  matched (.anyNoCase (spellings.map String.toList))

/-- Blanks and comments, at least one of either. -/
def ignored : Parser Unit :=
  (many (either [matched (.takeWhile1 Text.isBlank), matched (.lineComment ';')])).mapValue fun _ => ()

def literal : Parser Nat := fun input =>
  match matched (.takeWhile1 Char.isDigit) input with
  | .failed rest => .failed rest
  | .parsed digits rest =>
      -- Digits are taken as a whole: a number that is too large is not read in part.
      let number := Radix.decimal.valueOf digits
      if number < literalBound then .parsed number rest else .failed input

def label : Parser String :=
  (thenRead (matched (.char '@')) (matched (.takeWhile1 isWord))).mapValue String.ofList

def labelDefinition : Parser String :=
  followedBy label (both (optional (matched (.char ':'))) (optional ignored))

def register : Parser Register :=
  either (Register.all.map fun register => matchedAs (.noCase register.name.toList) register)

def argument : Parser (Argument String) :=
  either [
    -- Only the accumulator can be an argument; the other registers have no mode.
    matchedAs (.noCase Register.accumulator.name.toList) .accumulator,
    (thenRead (matched (.char '#')) literal).mapValue .immediate,
    literal.mapValue .direct,
    label.mapValue .label]

def nullaryWords : List (Opcode × List String) :=
  [(.nop, ["nop", "noop", "no-op"]), (.halt, ["halt", "hlt"])]

def binaryWords : List (Opcode × List String) :=
  [(.jumpIfZero, ["jmz", "jumpifzero"]), (.load, ["load", "lod"]), (.store, ["store", "stor", "sto"]),
   (.add, ["add"]), (.subtract, ["sub", "subtract"]), (.multiply, ["mul", "multiply"]),
   (.divide, ["div", "divide"]), (.and, ["and"]), (.or, ["or"]), (.equalsZero, ["cpz", "equalszero"]),
   (.lessThanZero, ["cpl", "lessthanzero"])]

def operation (words : List (Opcode × List String)) : Parser Opcode :=
  either (words.map fun (opcode, spellings) => (keyword spellings).mapValue fun _ => opcode)

def nullary : Parser (Shape String) :=
  (operation nullaryWords).mapValue .nullary

/-- A word, something to ignore, and then what belongs to the word. -/
def wordWith {α : Type} (spellings : List String) (object : Parser α) : Parser α :=
  thenRead (keyword spellings) (thenRead ignored object)

/-- A byte of data, or an operation with one argument or register. -/
def unary : Parser (Shape String) :=
  either [
    (wordWith ["mem", "memory"] literal).mapValue .data,
    (wordWith ["jmp", "jump"] argument).mapValue fun argument => .unary .jump none (some argument),
    (wordWith ["not"] register).mapValue fun register => .unary .not (some register) none]

/-- A comma with or without something to ignore around it, or else something to ignore. -/
def separator : Parser Unit :=
  either [
    (both (optional ignored) (both (matched (.char ',')) (optional ignored))).mapValue fun _ => (),
    ignored]

def binary : Parser (Shape String) :=
  (both (operation binaryWords) (thenRead ignored (both register (thenRead separator argument)))).mapValue
    fun (opcode, register, argument) => .binary opcode register argument

def statement : Parser Statement :=
  (both (optional (many labelDefinition)) (either [nullary, unary, binary])).mapValue
    fun (labels, shape) => ⟨labels.getD [], shape⟩

def program : Parser (List Statement) :=
  (both (optional ignored)
    (both (optional statement)
      (both (optional (many (thenRead ignored statement))) (optional ignored)))).mapValue
    fun (_, first, others, _) => first.toList ++ others.getD []

/-- The fault of a text of which `rest` cannot be read. -/
def faultAt (source rest : List Char) : Fault :=
  let read := source.take (source.length - rest.length)
  let line := read.count '\n' + 1
  let column := (read.reverse.takeWhile (· ≠ '\n')).length + 1
  .parse line column (String.ofList (Text.trimEnd (rest.takeWhile (· ≠ '\n'))))

def parse (source : String) : Except Fault (List Statement) :=
  match program source.toList with
  | .parsed statements [] => .ok statements
  | result => .error (faultAt source.toList result.rest)

def eventSource : String := "minicomp_asm::grammar"

def readEvents (statements : List Statement) : List Event :=
  [⟨.debug, eventSource, s!"parsed {statements.length} statements"⟩]

def parseEvents (source : String) : List Event :=
  match parse source with
  | .error _ => []
  | .ok statements => readEvents statements

end WordMachine.Assembly.Grammar
