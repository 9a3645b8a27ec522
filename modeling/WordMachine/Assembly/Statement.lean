import WordMachine.Instruction.Head

/-! # Statements of assembly programs

What a program consists of: arguments, shapes of instructions, and statements with their labels.  The kind of
labels is a parameter, so that an argument without labels is an `Argument Empty`.
-/

namespace WordMachine.Assembly

inductive Argument (Label : Type) where
  | accumulator
  | immediate (value : Nat)
  | direct (address : Nat)
  | label (name : Label)
  deriving Repr, DecidableEq, BEq

namespace Argument

variable {Label : Type}

def mode : Argument Label → Mode
  | accumulator => .accumulator
  | immediate _ => .immediate
  | direct _ | label _ => .direct

def text (name : Label → String) : Argument Label → String
  | accumulator => Register.accumulator.name
  | immediate value => s!"#{value}"
  | direct address => toString address
  | label target => "@" ++ name target

/-- The number in the operand field of an instruction with this argument, if it has such a field. -/
def payload? : Argument Empty → Option Nat
  | accumulator => none
  | immediate value => some value
  | direct address => some address

/-- Puts addresses in the place of labels. -/
def resolve {Error : Type} (address : Label → Except Error Nat) :
    Argument Label → Except Error (Argument Empty)
  | accumulator => .ok .accumulator
  | immediate value => .ok (.immediate value)
  | direct address => .ok (.direct address)
  | label target => (address target).map .direct

end Argument

inductive Shape (Label : Type) where
  | nullary (opcode : Opcode)
  | unary (opcode : Opcode) (register : Option Register) (argument : Option (Argument Label))
  | binary (opcode : Opcode) (register : Register) (argument : Argument Label)
  | data (value : Nat)
  deriving Repr, DecidableEq, BEq

/-- What determines the bytes of an instruction that is no data. -/
structure Framing (Label : Type) where
  opcode : Opcode
  register : Register
  argument : Option (Argument Label)
  deriving Repr, DecidableEq, BEq

namespace Framing

variable {Label : Type}

/-- The mode of an instruction; one without an argument has none to fetch. -/
def mode (framing : Framing Label) : Mode :=
  match framing.argument with
  | some argument => argument.mode
  | none => .accumulator

def head (framing : Framing Label) : Head :=
  ⟨framing.opcode, framing.register, framing.mode⟩

end Framing

namespace Shape

variable {Label : Type}

/-- The framing of an instruction that is no data.  The accumulator stands in for a register that is not
    named. -/
def framing? : Shape Label → Option (Framing Label)
  | nullary opcode => some ⟨opcode, .accumulator, none⟩
  | unary opcode register argument => some ⟨opcode, register.getD .accumulator, argument⟩
  | binary opcode register argument => some ⟨opcode, register, some argument⟩
  | data _ => none

def size (shape : Shape Label) : Nat :=
  match shape.framing? with
  | some framing => framing.head.size
  | none => 1

def resolve {Error : Type} (address : Label → Except Error Nat) : Shape Label → Except Error (Shape Empty)
  | nullary opcode => .ok (.nullary opcode)
  | unary opcode register none => .ok (.unary opcode register none)
  | unary opcode register (some argument) => do
      return .unary opcode register (some (← argument.resolve address))
  | binary opcode register argument => do
      return .binary opcode register (← argument.resolve address)
  | data value => .ok (.data value)

def text (name : Label → String) : Shape Label → String
  | nullary opcode => opcode.mnemonic
  | unary opcode register argument =>
      let register := match register with
        | some register => " " ++ register.name
        | none => ""
      let argument := match argument with
        | some argument => " " ++ argument.text name
        | none => ""
      opcode.mnemonic ++ register ++ argument
  | binary opcode register argument =>
      s!"{opcode.mnemonic} {register.name}, " ++ argument.text name
  | data value => s!"mem {value}"

end Shape

structure Statement where
  labels : List String
  shape : Shape String
  deriving Repr, DecidableEq, BEq

/-- A statement without references to labels at its address. -/
structure Instruction where
  labels : List String
  shape : Shape Empty
  address : Nat
  deriving Repr, DecidableEq, BEq

def labelText (labels : List String) : String :=
  String.join (labels.map fun label => s!"@{label}: ")

namespace Instruction

def size (instruction : Instruction) : Nat := instruction.shape.size

def next (instruction : Instruction) : Nat := instruction.address + instruction.size

def text (instruction : Instruction) : String :=
  Numeral.address instruction.address ++ "  " ++ labelText instruction.labels ++
    instruction.shape.text Empty.elim

end Instruction

theorem Argument.mode_of_resolve {Label Error : Type} {address : Label → Except Error Nat}
    {argument : Argument Label} {resolved : Argument Empty}
    (success : argument.resolve address = .ok resolved) : resolved.mode = argument.mode := by
  cases argument with
  | label target =>
      cases found : address target <;> simp [resolve, found, Except.map] at success
      subst success
      rfl
  | _ => simp only [resolve, Except.ok.injEq] at success; subst success; rfl

end WordMachine.Assembly
