import Mathlib.Logic.Relation
import WordMachine.Assembly.Grammar
import WordMachine.Proofs.Parsing.Patterns

/-! # The syntax of assembly text

The grammar as relations between a text, what it stands for, and the rest of the text behind it.  Nothing here
says in which order alternatives are tried or how far a repetition goes, except that names, numbers and comments
go as far as they can.
-/

namespace WordMachine.Assembly.Syntax

open Parsing

/-- One blank character, or a comment up to the end of its line. -/
inductive Blank : List Char → List Char → Prop where
  | space {c : Char} {rest : List Char} (blank : Text.isBlank c = true) : Blank (c :: rest) rest
  | comment {input line rest : List Char} (line : Line ';' input line rest) : Blank input rest

/-- Any number of blanks. -/
abbrev Blanks : List Char → List Char → Prop := Relation.ReflTransGen Blank

/-- At least one blank. -/
abbrev Gap : List Char → List Char → Prop := Relation.TransGen Blank

def spellings : Opcode → List String
  | .nop => ["nop", "noop", "no-op"]
  | .halt => ["halt", "hlt"]
  | .jump => ["jmp", "jump"]
  | .jumpIfZero => ["jmz", "jumpifzero"]
  | .load => ["load", "lod"]
  | .store => ["store", "stor", "sto"]
  | .add => ["add"]
  | .subtract => ["sub", "subtract"]
  | .multiply => ["mul", "multiply"]
  | .divide => ["div", "divide"]
  | .and => ["and"]
  | .or => ["or"]
  | .not => ["not"]
  | .equalsZero => ["cpz", "equalszero"]
  | .lessThanZero => ["cpl", "lessthanzero"]

def dataSpellings : List String := ["mem", "memory"]

def registerSpelling : Register → String
  | .r0 => "r0"
  | .r1 => "r1"
  | .r2 => "r2"

def binaryOpcodes : List Opcode :=
  [.jumpIfZero, .load, .store, .add, .subtract, .multiply, .divide, .and, .or, .equalsZero, .lessThanZero]

def nullaryOpcodes : List Opcode := [.nop, .halt]

/-- One of some words in any case. -/
def Word (words : List String) (input rest : List Char) : Prop :=
  ∃ spelling ∈ words, ∃ word, Spelled spelling.toList input word rest

/-- The number that decimal digits stand for. -/
def number (digits : List Char) : Nat :=
  digits.foldl (fun number digit => 10 * number + (digit.toNat - '0'.toNat)) 0

/-- A run of digits that stands for a 64-bit number. -/
inductive Literal : List Char → Nat → List Char → Prop where
  | mk {input digits rest : List Char} (run : Run Char.isDigit input digits rest)
      (bound : number digits < UInt64.size) : Literal input (number digits) rest

inductive Label : List Char → String → List Char → Prop where
  | mk {input name rest : List Char} (run : Run Grammar.isWord input name rest) :
      Label ('@' :: input) (String.ofList name) rest

inductive Colon : List Char → List Char → Prop where
  | absent {rest : List Char} : Colon rest rest
  | present {rest : List Char} : Colon (':' :: rest) rest

inductive LabelDefinition : List Char → String → List Char → Prop where
  | mk {input behindName behindColon rest : List Char} {name : String} (label : Label input name behindName)
      (colon : Colon behindName behindColon) (blanks : Blanks behindColon rest) : LabelDefinition input name rest

inductive LabelDefinitions : List Char → List String → List Char → Prop where
  | none {input : List Char} : LabelDefinitions input [] input
  | more {input mid rest : List Char} {name : String} {names : List String} (first : LabelDefinition input name mid)
      (others : LabelDefinitions mid names rest) : LabelDefinitions input (name :: names) rest

inductive RegisterName : List Char → Register → List Char → Prop where
  | mk {input word rest : List Char} {register : Register}
      (spelled : Spelled (registerSpelling register).toList input word rest) : RegisterName input register rest

inductive ArgumentText : List Char → Argument String → List Char → Prop where
  | accumulator {input rest : List Char} (register : RegisterName input .r0 rest) :
      ArgumentText input .accumulator rest
  | immediate {input rest : List Char} {value : Nat} (literal : Literal input value rest) :
      ArgumentText ('#' :: input) (.immediate value) rest
  | direct {input rest : List Char} {address : Nat} (literal : Literal input address rest) :
      ArgumentText input (.direct address) rest
  | label {input rest : List Char} {name : String} (label : Label input name rest) :
      ArgumentText input (.label name) rest

/-- What stands between a register and an argument. -/
inductive Separator : List Char → List Char → Prop where
  | comma {input mid rest : List Char} (before : Blanks input (',' :: mid)) (behind : Blanks mid rest) :
      Separator input rest
  | gap {input rest : List Char} (gap : Gap input rest) : Separator input rest

inductive Body : List Char → Shape String → List Char → Prop where
  | nullary {input rest : List Char} {opcode : Opcode} (kind : opcode ∈ nullaryOpcodes)
      (word : Word (spellings opcode) input rest) : Body input (.nullary opcode) rest
  | data {input behindWord field rest : List Char} {value : Nat} (word : Word dataSpellings input behindWord)
      (gap : Gap behindWord field) (literal : Literal field value rest) : Body input (.data value) rest
  | jump {input behindWord field rest : List Char} {argument : Argument String}
      (word : Word (spellings .jump) input behindWord) (gap : Gap behindWord field)
      (operand : ArgumentText field argument rest) : Body input (.unary .jump none (some argument)) rest
  | not {input behindWord field rest : List Char} {register : Register}
      (word : Word (spellings .not) input behindWord) (gap : Gap behindWord field)
      (name : RegisterName field register rest) : Body input (.unary .not (some register) none) rest
  | binary {input behindWord field behindName operand rest : List Char} {opcode : Opcode} {register : Register}
      {argument : Argument String} (kind : opcode ∈ binaryOpcodes) (word : Word (spellings opcode) input behindWord)
      (gap : Gap behindWord field) (name : RegisterName field register behindName)
      (separator : Separator behindName operand) (text : ArgumentText operand argument rest) :
      Body input (.binary opcode register argument) rest

inductive StatementText : List Char → Statement → List Char → Prop where
  | mk {input mid rest : List Char} {labels : List String} {shape : Shape String}
      (definitions : LabelDefinitions input labels mid) (body : Body mid shape rest) :
      StatementText input ⟨labels, shape⟩ rest

/-- The statements behind the first one, and the end of the text. -/
inductive Others : List Char → List Statement → Prop where
  | done {input : List Char} (blanks : Blanks input []) : Others input []
  | next {input mid rest : List Char} {statement : Statement} {statements : List Statement} (gap : Gap input mid)
      (text : StatementText mid statement rest) (others : Others rest statements) :
      Others input (statement :: statements)

inductive ProgramText : List Char → List Statement → Prop where
  | empty {source : List Char} (blanks : Blanks source []) : ProgramText source []
  | statements {source mid rest : List Char} {first : Statement} {others : List Statement}
      (blanks : Blanks source mid) (text : StatementText mid first rest) (behind : Others rest others) :
      ProgramText source (first :: others)

/-- No blank stands at the start of a text. -/
def Stops (input : List Char) : Prop := ∀ rest, ¬ Blank input rest

/-- A character that does not start a blank. -/
structure Solid (c : Char) : Prop where
  visible : Text.isBlank c = false
  plain : c ≠ ';'

instance (c : Char) : Decidable (Solid c) :=
  decidable_of_iff (Text.isBlank c = false ∧ c ≠ ';') ⟨fun ⟨visible, plain⟩ => ⟨visible, plain⟩,
    fun ⟨visible, plain⟩ => ⟨visible, plain⟩⟩

theorem stops_nil : Stops [] := by
  intro rest blank
  cases blank with
  | comment line =>
      have split := line.split
      have marked := line.marked
      rw [(List.append_eq_nil_iff.1 split.symm).1] at marked
      cases marked

theorem stops_cons {c : Char} {input : List Char} (solid : Solid c) : Stops (c :: input) := by
  intro rest blank
  cases blank with
  | space blank =>
      rw [solid.visible] at blank
      cases blank
  | @comment _ text _ line =>
      have split := line.split
      have marked := line.marked
      cases text with
      | nil => cases marked
      | cons first others =>
          cases marked
          exact solid.plain (List.cons.inj split).1

/-- What stands behind a blank is known. -/
theorem Blank.unique {input a b : List Char} (first : Blank input a) (second : Blank input b) : a = b := by
  have semicolon : ∀ {line rest : List Char} {c : Char} {others : List Char}, Line ';' (c :: others) line rest →
      Text.isBlank c = false := by
    intro line rest c others reads
    have split := reads.split
    have marked := reads.marked
    cases line with
    | nil => cases marked
    | cons first line =>
        cases marked
        rw [(List.cons.inj split).1]
        decide
  cases first with
  | space blank =>
      cases second with
      | space _ => rfl
      | comment line =>
          rw [semicolon line] at blank
          cases blank
  | comment line =>
      cases second with
      | space blank =>
          rw [semicolon line] at blank
          cases blank
      | comment again =>
          have same := line.eq_takeWhile.symm.trans again.eq_takeWhile
          subst same
          exact List.append_cancel_left (line.split.symm.trans again.split)

/-- Blanks that go as far as they can end at one place. -/
theorem Blanks.unique {input a b : List Char} (first : Blanks input a) (second : Blanks input b) (stopsA : Stops a)
    (stopsB : Stops b) : a = b := by
  have linear : Relator.RightUnique Blank := fun _ _ _ one two => one.unique two
  have ends : ∀ {a b}, Stops a → Blanks a b → a = b := by
    intro a b stops blanks
    cases blanks.cases_head with
    | inl same => exact same
    | inr step =>
        obtain ⟨mid, blank, -⟩ := step
        exact absurd blank (stops mid)
  rcases first.total_of_right_unique linear second with onward | onward
  · exact ends stopsA onward
  · exact (ends stopsB onward).symm

end WordMachine.Assembly.Syntax
