import WordMachine.Memory.Basic

/-! # What can be wrong with a program

The reasons for which a text is not assembled, from its grammar to the memory that the program should go to.  One
of them is not reported: arithmetic is checked, and where it overflows all work ends.
-/

namespace WordMachine.Assembly

inductive Fault where
  /-- The text cannot be read from a place on, which is given by line and column; `near` is the rest of the
      line. -/
  | parse (line column : Nat) (near : String)
  | duplicateLabel (label : String)
  | undefinedLabel (label : String)
  | immediateStore (address : Nat)
  | operandTooWide (value address : Nat)
  | dataTooWide (value address : Nat)
  | memory (fault : Memory.Fault)
  /-- A bit address takes more than 64 bits.  This is no report to the caller: it panics. -/
  | overflow
  deriving Repr, DecidableEq, BEq

namespace Fault

def message : Fault → String
  | parse line column near => s!"failed to parse assembly at {line}:{column} starting from: {near}"
  | duplicateLabel label => s!"label @{label} is defined more than once"
  | undefinedLabel label => s!"reference to undefined label @{label}"
  | immediateStore address => s!"store @ {address} uses invalid immediate addressing mode"
  | operandTooWide value address => s!"operand {value} @ {address} does not fit in 16 bits"
  | dataTooWide value address => s!"mem {value} @ {address} does not fit in a byte"
  | memory fault => fault.message
  | overflow => "attempt to multiply with overflow"

/-- The text of a fault, and then that of the error beneath it where the fault adds words of its own. -/
def messages (fault : Fault) : List String :=
  match fault with
  | memory inner => inner.messages
  | _ => [fault.message]

end Fault

end WordMachine.Assembly
