/-! # Events

What a program reports about its progress while it works: a level, the part of the program that reports, and
a message.  Events are values; what an operation reports is a function of the operation's input.
-/

namespace WordMachine

inductive Level where
  | info
  | debug
  | trace
  deriving Repr, DecidableEq, BEq

namespace Level

def name : Level → String
  | .info => "INFO"
  | .debug => "DEBUG"
  | .trace => "TRACE"

/-- How often more detail has to be asked for until events of a level are shown. -/
def verbosity : Level → Nat
  | .info => 1
  | .debug => 2
  | .trace => 3

end Level

structure Event where
  level : Level
  source : String
  message : String
  deriving Repr, DecidableEq, BEq

namespace Event

/-- The lines that are shown of events, each as `line` spells it. -/
def lines (line : Event → String) (verbosity : Nat) (events : List Event) : String :=
  String.join ((events.filter fun event => event.level.verbosity ≤ verbosity).map line)

end Event

end WordMachine
