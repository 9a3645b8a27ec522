import WordMachine.Assembly.Fault
import WordMachine.Assembly.Statement
import WordMachine.Event

/-! # Layout of a program

Statements follow each other in memory without gaps from address 0 on.  A label stands for the address of its
statement; no label is attached twice, and every label that is referred to is attached somewhere.
-/

namespace WordMachine.Assembly

/-- Labels with their addresses, in the order in which they are attached. -/
abbrev LabelTable : Type := List (String × Nat)

/-- Statements with their addresses, the first of them at `address`. -/
def place (address : Nat) : List Statement → List (Nat × Statement)
  | [] => []
  | statement :: rest => (address, statement) :: place (address + statement.shape.size) rest

def labelsOf (placed : List (Nat × Statement)) : List (String × Nat) :=
  placed.flatMap fun (address, statement) => statement.labels.map (·, address)

namespace LabelTable

def address? (table : LabelTable) (label : String) : Option Nat := table.lookup label

def resolve (table : LabelTable) (label : String) : Except Fault Nat :=
  match table.address? label with
  | some address => .ok address
  | none => .error (.undefinedLabel label)

/-- Adds labels one by one and refuses one that is there already. -/
def extend (table : LabelTable) : List (String × Nat) → Except Fault LabelTable
  | [] => .ok table
  | (label, address) :: rest =>
      match table.address? label with
      | some _ => .error (.duplicateLabel label)
      | none => extend (table ++ [(label, address)]) rest

end LabelTable

/-- A program of which every statement has its address and every reference is resolved. -/
structure Layout where
  instructions : List Instruction
  labels : LabelTable
  deriving Repr, DecidableEq, BEq

def labelTable (statements : List Statement) : Except Fault LabelTable :=
  LabelTable.extend [] (labelsOf (place 0 statements))

def resolveStatement (table : LabelTable) (address : Nat) (statement : Statement) :
    Except Fault Instruction := do
  return ⟨statement.labels, ← statement.shape.resolve table.resolve, address⟩

def layout (statements : List Statement) : Except Fault Layout := do
  let table ← labelTable statements
  let instructions ← (place 0 statements).mapM fun (address, statement) =>
    resolveStatement table address statement
  return ⟨instructions, table⟩

/-- Statements at their addresses and with addresses in the place of labels. -/
def resolve (statements : List Statement) : Except Fault (List Instruction) :=
  (layout statements).map Layout.instructions

def programSize (instructions : List Instruction) : Nat :=
  match instructions.getLast? with
  | some last => last.next
  | none => 0

/-- The size of a program as it is reported, which takes no more than 64 bits; to ask for a larger one panics. -/
def reportedSize? (instructions : List Instruction) : Option Nat :=
  if programSize instructions < UInt64.size then some (programSize instructions) else none

def eventSource : String := "minicomp_asm::assemble"

/-- What the layout of statements reports; all labels have their places before a reference can fail. -/
def layoutEvents (statements : List Statement) : List Event :=
  match labelTable statements with
  | .error _ => []
  | .ok table => [⟨.debug, eventSource, s!"placed {table.length} labels"⟩]

end WordMachine.Assembly
