import WordMachine.Event
import WordMachine.Machine.Step

/-! # Runs of a machine

A run steps a machine until it halts or fails, or until it has used up its steps.  A run without a limit is
one with as many steps as the machine has states: a machine that runs for longer repeats a state and never
halts.
-/

namespace WordMachine.Machine

/-- What a run leaves: the number of its steps, the final halt included, or the fault that ended it; and the
    machine. -/
structure Outcome where
  result : Except Fault Nat
  machine : Machine

/-- Steps a machine until it halts, at most `budget` times; `taken` steps were taken before. -/
def runFrom (taken : Nat) (budget : Nat) (machine : Machine) : Outcome :=
  -- A machine that has halted needs no budget.
  if machine.halted then ⟨.ok taken, machine⟩
  else
    match budget with
    | 0 => ⟨.error (.stepBudgetExhausted taken), machine⟩
    | budget + 1 =>
        let next := machine.step
        match next.result with
        | .error fault => ⟨.error fault, next.machine⟩
        | .ok _ => runFrom (taken + 1) budget next.machine

def runFor (budget : Nat) (machine : Machine) : Outcome := runFrom 0 budget machine

/-- The number of states that a machine can be in without halting: every content of its memory, its three
    registers and its program counter. -/
def stateCount (machine : Machine) : Nat := 1 <<< (machine.memory.bitSize + 3 * 16 + 64)

/-- Runs a machine until it halts, within a limit of steps if there is one.  Without a limit only a machine that
    never halts uses up its steps. -/
def run (limit : Option Nat) (machine : Machine) : Outcome :=
  machine.runFor (limit.getD machine.stateCount)

def eventSource : String := "minicomp_machine::vm"

/-- What a step reports: the instruction and its operand, once both are known. -/
def stepEvents (machine : Machine) : List Event :=
  if machine.halted then []
  else
    match machine.fetch with
    | .error _ => []
    | .ok head =>
        match machine.operand head with
        | .error _ => []
        | .ok operand =>
            let instruction := s!"{head.opcode.mnemonic} {head.register.name} {head.mode.name}"
            [⟨.trace, eventSource,
              s!"{Numeral.address machine.pc.toNat}: {instruction} = {operand.value}"⟩]

def traceFor (budget : Nat) (machine : Machine) : List Event :=
  if machine.halted then []
  else
    match budget with
    | 0 => []
    | budget + 1 =>
        let next := machine.step
        machine.stepEvents ++
          match next.result with
          | .error _ => []
          | .ok _ => traceFor budget next.machine

def Outcome.events (outcome : Outcome) : List Event :=
  match outcome.result with
  | .error _ => []
  | .ok steps => [⟨.debug, eventSource, s!"halted after {steps} steps at pc {outcome.machine.pc}"⟩]

def runEvents (limit : Option Nat) (machine : Machine) : List Event :=
  machine.traceFor (limit.getD machine.stateCount) ++ (machine.run limit).events

end WordMachine.Machine
