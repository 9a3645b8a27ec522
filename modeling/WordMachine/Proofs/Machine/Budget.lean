import Mathlib.Data.Fintype.BigOperators
import Mathlib.Data.Fintype.Pigeonhole
import WordMachine.Machine.Run

/-! # Runs are iterated steps

A run takes the steps of its machine one after the other, as many as its budget allows.  It ends in one of three
ways: the machine halts, a step fails, or the budget is used up while the machine is still running.  A run that used
up its budget can be taken up again, and nothing is lost by the interruption.  A run without a limit needs no more
steps than the machine has states, since a machine that comes back to a state never ends.
-/

namespace WordMachine.Machine

/-- The machine after some steps, whatever the steps report. -/
def stepped (machine : Machine) : Nat → Machine
  | 0 => machine
  | count + 1 => machine.step.machine.stepped count

/-- So many steps succeed, and none of them is the step of a machine that has halted. -/
def Advances (machine : Machine) (count : Nat) : Prop :=
  ∀ earlier < count, (machine.stepped earlier).halted = false ∧
    ∃ status, (machine.stepped earlier).step.result = .ok status

/-- So many steps succeed, and the machine is running after each of them. -/
def StaysRunning (machine : Machine) (count : Nat) : Prop :=
  ∀ earlier < count, (machine.stepped earlier).step.result = .ok .running

/-- So many steps halt a machine, and no fewer do. -/
structure HaltsAfter (machine : Machine) (count : Nat) : Prop where
  advances : machine.Advances count
  halted : (machine.stepped count).halted = true

/-- The step after so many steps is the first that does not leave the machine running, and it fails. -/
structure FailsAfter (machine : Machine) (count : Nat) (fault : Fault) : Prop where
  runs : machine.StaysRunning count
  fails : (machine.stepped count).step.result = .error fault

/-- A budget is used up and the machine is still running. -/
structure Exhausts (machine : Machine) (budget : Nat) : Prop where
  running : machine.halted = false
  runs : machine.StaysRunning budget

/-- What a run within a budget leaves. -/
inductive Ends (machine : Machine) (budget : Nat) : Outcome → Prop where
  | halts {count : Nat} (within : count ≤ budget) (halts : machine.HaltsAfter count) :
      Ends machine budget ⟨.ok count, machine.stepped count⟩
  /-- The step that fails is one of the budget, and what it leaves is left. -/
  | fails {count : Nat} {fault : Fault} (within : count < budget) (fails : machine.FailsAfter count fault) :
      Ends machine budget ⟨.error fault, machine.stepped (count + 1)⟩
  | exhausted (exhausts : machine.Exhausts budget) :
      Ends machine budget ⟨.error (.stepBudgetExhausted budget), machine.stepped budget⟩

/-- The outcome of a run if the steps taken before it are counted as well. -/
def Outcome.after (before : Nat) (outcome : Outcome) : Outcome where
  result :=
    match outcome.result with
    | .ok steps => .ok (before + steps)
    | .error (.stepBudgetExhausted steps) => .error (.stepBudgetExhausted (before + steps))
    | .error fault => .error fault
  machine := outcome.machine

theorem Outcome.after_after (first second : Nat) (outcome : Outcome) :
    (outcome.after second).after first = outcome.after (first + second) := by
  obtain ⟨result, machine⟩ := outcome
  cases result with
  | ok steps => simp [after, Nat.add_assoc]
  | error fault => cases fault <;> simp [after, Nat.add_assoc]

section Steps

variable {machine : Machine}

/-- A step of a running machine executes an instruction, or fails before and leaves the machine as it is. -/
theorem step_cases (running : machine.halted = false) :
    (∃ fault, machine.step = ⟨.error fault, machine⟩ ∧ ∀ steps, fault ≠ .stepBudgetExhausted steps) ∨
      ∃ behind origin head operand, machine.step = (machine.jumpTo behind).execute origin head operand := by
  cases fetched : machine.fetch with
  | error fault =>
      refine .inl ⟨fault, by simp [step, running, fetched], ?_⟩
      simp only [fetch, bind, Except.bind, Except.mapError] at fetched
      grind
  | ok head =>
      cases resolved : machine.operand head with
      | error fault =>
          refine .inl ⟨fault, by simp [step, running, fetched, resolved], ?_⟩
          simp only [operand, operandField, bind, Except.bind, pure, Except.pure, Except.mapError] at resolved
          grind
      | ok operand =>
          exact .inr ⟨machine.pc + UInt64.ofNat head.size, machine.pc, head, operand,
            by simp [step, running, fetched, resolved]⟩

theorem execute_ne_stepBudgetExhausted (machine : Machine) (origin : UInt64) (head : Head) (operand : Operand)
    (steps : Nat) : (machine.execute origin head operand).result ≠ .error (.stepBudgetExhausted steps) := by
  obtain ⟨opcode, register, mode⟩ := head
  cases opcode <;> simp only [execute, executeStore, continues, assigns, ne_eq, reduceCtorEq, not_false_eq_true]
  all_goals grind

theorem halted_execute {origin : UInt64} {head : Head} {operand : Operand} {status : Status}
    (running : machine.halted = false) (success : (machine.execute origin head operand).result = .ok status) :
    (machine.execute origin head operand).machine.halted = decide (status = .halted) := by
  obtain ⟨opcode, register, mode⟩ := head
  cases opcode <;> simp only [execute, executeStore, continues, assigns, setRegister, jumpTo] at success ⊢
  all_goals grind

/-- No step runs out of budget. -/
theorem step_ne_stepBudgetExhausted (machine : Machine) (steps : Nat) :
    machine.step.result ≠ .error (.stepBudgetExhausted steps) := by
  cases running : machine.halted with
  | true => simp [step_of_halted running]
  | false =>
      obtain ⟨fault, stopped, other⟩ | ⟨behind, origin, head, operand, executed⟩ := step_cases running
      · rw [stopped]
        intro same
        exact other steps (Except.error.inj same)
      · rw [executed]
        exact execute_ne_stepBudgetExhausted _ _ _ _ _

/-- The fault of a step does not depend on the steps before it. -/
theorem Outcome.after_of_step {fault : Fault} (fails : machine.step.result = .error fault) (before : Nat)
    (left : Machine) : Outcome.after before ⟨.error fault, left⟩ = ⟨.error fault, left⟩ := by
  cases fault with
  | stepBudgetExhausted steps => exact absurd fails (step_ne_stepBudgetExhausted machine steps)
  | _ => rfl

/-- A step that succeeds reports whether it halts the machine. -/
theorem halted_step {status : Status} (running : machine.halted = false)
    (success : machine.step.result = .ok status) :
    machine.step.machine.halted = decide (status = .halted) := by
  obtain ⟨fault, stopped, -⟩ | ⟨behind, origin, head, operand, executed⟩ := step_cases running
  · rw [stopped] at success
    cases success
  · rw [executed] at success ⊢
    exact halted_execute running success

/-- Only a running machine has a step that fails or leaves it running. -/
theorem running_of_step {result : Except Fault Status} (reports : machine.step.result = result)
    (other : result ≠ .ok .halted) : machine.halted = false := by
  cases running : machine.halted with
  | false => rfl
  | true =>
      rw [step_of_halted running] at reports
      exact absurd reports.symm other

theorem size_step (machine : Machine) : machine.step.machine.memory.size = machine.memory.size := by
  cases running : machine.halted with
  | true => rw [step_of_halted running]
  | false =>
      obtain ⟨fault, stopped, -⟩ | ⟨behind, origin, head, operand, executed⟩ := step_cases running
      · rw [stopped]
      · rw [executed, size_execute, jumpTo]

theorem stepped_add (machine : Machine) (count more : Nat) :
    machine.stepped (count + more) = (machine.stepped count).stepped more := by
  induction count generalizing machine with
  | zero => rw [Nat.zero_add, stepped]
  | succ count ih => rw [Nat.add_right_comm, stepped, stepped, ih]

theorem stepped_succ (machine : Machine) (count : Nat) :
    machine.stepped (count + 1) = (machine.stepped count).step.machine := by
  rw [stepped_add, stepped, stepped]

theorem size_stepped (machine : Machine) (count : Nat) :
    (machine.stepped count).memory.size = machine.memory.size := by
  induction count with
  | zero => rfl
  | succ count ih => rw [stepped_succ, size_step, ih]

end Steps

section Runs

variable {machine : Machine} {budget count : Nat}

theorem runFrom_of_halted (halted : machine.halted = true) (taken : Nat) :
    machine.runFrom taken budget = ⟨.ok taken, machine⟩ := by
  cases budget <;> simp [runFrom, halted]

theorem runFrom_zero (running : machine.halted = false) (taken : Nat) :
    machine.runFrom taken 0 = ⟨.error (.stepBudgetExhausted taken), machine⟩ := by
  simp [runFrom, running]

theorem runFrom_of_error {fault : Fault} (running : machine.halted = false)
    (fails : machine.step.result = .error fault) (taken : Nat) :
    machine.runFrom taken (budget + 1) = ⟨.error fault, machine.step.machine⟩ := by
  simp [runFrom, running, fails]

theorem runFrom_of_ok {status : Status} (running : machine.halted = false)
    (succeeds : machine.step.result = .ok status) (taken : Nat) :
    machine.runFrom taken (budget + 1) = machine.step.machine.runFrom (taken + 1) budget := by
  simp [runFrom, running, succeeds]

/-- A run goes on as one that starts anew, but for its count. -/
theorem runFrom_eq_after (taken budget : Nat) (machine : Machine) :
    machine.runFrom taken budget = (machine.runFor budget).after taken := by
  induction budget generalizing machine taken with
  | zero =>
      cases halted : machine.halted with
      | true => simp [runFor, runFrom_of_halted halted, Outcome.after]
      | false => simp [runFor, runFrom_zero halted, Outcome.after]
  | succ budget ih =>
      cases halted : machine.halted with
      | true => simp [runFor, runFrom_of_halted halted, Outcome.after]
      | false =>
          cases stepped : machine.step.result with
          | error fault =>
              rw [runFor, runFrom_of_error halted stepped, runFrom_of_error halted stepped,
                Outcome.after_of_step stepped]
          | ok status =>
              rw [runFor, runFrom_of_ok halted stepped, runFrom_of_ok halted stepped, ih, ih (0 + 1),
                Outcome.after_after, Nat.zero_add]

/-- After steps that succeed a run has the rest of its budget left. -/
theorem Advances.runFor_add (advances : machine.Advances count) (rest : Nat) :
    machine.runFor (count + rest) = ((machine.stepped count).runFor rest).after count := by
  induction count generalizing machine with
  | zero => rw [Nat.zero_add, stepped, ← runFrom_eq_after, runFor]
  | succ count ih =>
      obtain ⟨running, status, succeeds⟩ := advances 0 (Nat.zero_lt_succ _)
      rw [stepped] at running succeeds
      have others : machine.step.machine.Advances count :=
        fun earlier bound => advances (earlier + 1) (Nat.succ_lt_succ bound)
      rw [Nat.add_right_comm, runFor, runFrom_of_ok running succeeds, runFrom_eq_after, ih others,
        Outcome.after_after, stepped, Nat.zero_add, Nat.add_comm]

theorem StaysRunning.advances (runs : machine.StaysRunning count) : machine.Advances count := by
  intro earlier bound
  have success := runs earlier bound
  exact ⟨running_of_step success (by simp), _, success⟩

theorem Exhausts.of_le (exhausts : machine.Exhausts budget) (within : count ≤ budget) : machine.Exhausts count :=
  ⟨exhausts.running, fun earlier bound => exhausts.runs earlier (Nat.lt_of_lt_of_le bound within)⟩

theorem Exhausts.running_stepped (exhausts : machine.Exhausts budget) : (machine.stepped budget).halted = false := by
  cases budget with
  | zero => exact exhausts.running
  | succ budget =>
      have success := exhausts.runs budget (Nat.lt_succ_self _)
      rw [stepped_succ, halted_step (running_of_step success (by simp)) success]
      rfl

theorem StaysRunning.succ (runs : machine.StaysRunning count)
    (last : (machine.stepped count).step.result = .ok .running) : machine.StaysRunning (count + 1) := by
  intro earlier bound
  rcases Nat.lt_succ_iff_lt_or_eq.1 bound with before | rfl
  · exact runs earlier before
  · exact last

theorem Advances.succ {status : Status} (advances : machine.Advances count)
    (running : (machine.stepped count).halted = false) (last : (machine.stepped count).step.result = .ok status) :
    machine.Advances (count + 1) := by
  intro earlier bound
  rcases Nat.lt_succ_iff_lt_or_eq.1 bound with before | rfl
  · exact advances earlier before
  · exact ⟨running, _, last⟩

/-- Within a budget a machine halts or fails, or uses it up. -/
theorem exists_ends (machine : Machine) (budget : Nat) : ∃ outcome, machine.Ends budget outcome := by
  induction budget with
  | zero =>
      cases halted : machine.halted with
      | true => exact ⟨_, .halts (Nat.le_refl _) ⟨fun _ bound => absurd bound (Nat.not_lt_zero _), halted⟩⟩
      | false => exact ⟨_, .exhausted ⟨halted, fun _ bound => absurd bound (Nat.not_lt_zero _)⟩⟩
  | succ budget ih =>
      obtain ⟨outcome, ends⟩ := ih
      cases ends with
      | halts within halts => exact ⟨_, .halts (Nat.le_succ_of_le within) halts⟩
      | fails within fails => exact ⟨_, .fails (Nat.lt_succ_of_lt within) fails⟩
      | exhausted exhausts =>
          -- One more step decides.
          have running := exhausts.running_stepped
          cases last : (machine.stepped budget).step.result with
          | error fault => exact ⟨_, .fails (Nat.lt_succ_self _) ⟨exhausts.runs, last⟩⟩
          | ok status =>
              cases status with
              | running => exact ⟨_, .exhausted ⟨exhausts.running, exhausts.runs.succ last⟩⟩
              | halted =>
                  have halts := halted_step running last
                  rw [← stepped_succ] at halts
                  exact ⟨_, .halts (Nat.le_refl _) ⟨exhausts.runs.advances.succ running last, halts⟩⟩

theorem Ends.runFor_eq {outcome : Outcome} (ends : machine.Ends budget outcome) :
    machine.runFor budget = outcome := by
  cases ends with
  | halts within halts =>
      obtain ⟨rest, rfl⟩ := Nat.exists_eq_add_of_le within
      rw [halts.advances.runFor_add, runFor, runFrom_of_halted halts.halted]
      rfl
  | fails within fails =>
      obtain ⟨rest, rfl⟩ := Nat.exists_eq_add_of_lt within
      have running := running_of_step fails.fails (by simp)
      rw [Nat.add_assoc, fails.runs.advances.runFor_add, runFor, runFrom_of_error running fails.fails,
        Outcome.after_of_step fails.fails, stepped_succ]
  | exhausted exhausts =>
      have none := exhausts.runs.advances.runFor_add 0
      rw [Nat.add_zero] at none
      rw [none, runFor, runFrom_zero exhausts.running_stepped]
      rfl

/-- A run ends in one way. -/
theorem runFor_eq_iff_ends {outcome : Outcome} : machine.runFor budget = outcome ↔ machine.Ends budget outcome := by
  constructor
  · rintro rfl
    obtain ⟨outcome, ends⟩ := exists_ends machine budget
    rwa [ends.runFor_eq]
  · exact Ends.runFor_eq

/-- Only a budget that is used up is reported as one. -/
theorem exhausts_of_runFor {steps : Nat}
    (gaveUp : (machine.runFor budget).result = .error (.stepBudgetExhausted steps)) : machine.Exhausts budget := by
  obtain ⟨outcome, how⟩ := exists_ends machine budget
  rw [how.runFor_eq] at gaveUp
  cases how with
  | halts _ _ => cases gaveUp
  | fails _ fails =>
      cases gaveUp
      exact absurd fails.fails (step_ne_stepBudgetExhausted _ _)
  | exhausted exhausts => exact exhausts

end Runs

section Repetition

variable {machine : Machine} {count : Nat}

/-- What tells machines of one memory size apart that have not halted. -/
abbrev Content (size : Nat) : Type :=
  (Fin size → Fin UInt8.size) × (Fin UInt16.size × Fin UInt16.size × Fin UInt16.size) × Fin UInt64.size

def content (size : Nat) (machine : Machine) : Content size :=
  (fun index => (machine.memory.bytes.getD index 0).toFin,
    (machine.registers.r0.toFin, machine.registers.r1.toFin, machine.registers.r2.toFin), machine.pc.toFin)

theorem card_content (machine : Machine) : Fintype.card (Content machine.memory.size) = machine.stateCount := by
  rw [stateCount, Memory.bitSize, Nat.one_shiftLeft, Nat.pow_add, Nat.pow_add, Nat.pow_mul]
  simp only [Fintype.card_prod, Fintype.card_fun, Fintype.card_fin, UInt8.size, UInt16.size, UInt64.size]
  rw [show (2 : Nat) ^ 8 = 256 by decide]
  omega

theorem eq_of_content_eq {other : Machine} (same : other.memory.size = machine.memory.size)
    (running : machine.halted = false) (also : other.halted = false)
    (agree : other.content machine.memory.size = machine.content machine.memory.size) : other = machine := by
  obtain ⟨⟨bytes⟩, ⟨r0, r1, r2⟩, pc, halted⟩ := machine
  obtain ⟨⟨otherBytes⟩, ⟨other0, other1, other2⟩, otherPc, otherHalted⟩ := other
  simp only [content, Prod.mk.injEq, UInt16.toFin_inj, UInt64.toFin_inj] at agree
  obtain ⟨cells, ⟨rfl, rfl, rfl⟩, rfl⟩ := agree
  have bytesEq : otherBytes = bytes := by
    apply Array.ext same
    intro index bound inside
    have cell := congrFun cells ⟨index, inside⟩
    simp only [UInt8.toFin_inj] at cell
    simpa [bound, inside] using cell
  cases bytesEq
  cases running
  cases also
  rfl

/-- A machine that runs on for as many steps as it has states comes back to a state. -/
theorem Exhausts.exists_repetition (exhausts : machine.Exhausts machine.stateCount) :
    ∃ first later, first < later ∧ later ≤ machine.stateCount ∧ machine.stepped first = machine.stepped later := by
  have running : ∀ count ≤ machine.stateCount, (machine.stepped count).halted = false :=
    fun count within => (exhausts.of_le within).running_stepped
  obtain ⟨i, j, distinct, same⟩ := Fintype.exists_ne_map_eq_of_card_lt
    (fun count : Fin (machine.stateCount + 1) => (machine.stepped count).content machine.memory.size)
    (by rw [card_content, Fintype.card_fin]; omega)
  have equal : machine.stepped i = machine.stepped j := by
    have sizes : (machine.stepped j).memory.size = machine.memory.size := size_stepped machine j
    refine eq_of_content_eq (by rw [sizes, size_stepped]) (running j (by omega)) (running i (by omega)) ?_
    rw [sizes]
    exact same
  rcases Nat.lt_or_gt_of_ne (Fin.val_ne_of_ne distinct) with before | behind
  · exact ⟨i, j, before, by omega, equal⟩
  · exact ⟨j, i, behind, by omega, equal.symm⟩

/-- A machine that comes back to a state is never in a state that it was not in before. -/
theorem exists_stepped_eq {first later : Nat} (order : first < later)
    (same : machine.stepped first = machine.stepped later) (count : Nat) :
    ∃ earlier < later, machine.stepped earlier = machine.stepped count := by
  induction count using Nat.strong_induction_on with
  | h count ih =>
      rcases Nat.lt_or_ge count later with before | behind
      · exact ⟨count, before, rfl⟩
      · obtain ⟨more, rfl⟩ := Nat.exists_eq_add_of_le behind
        obtain ⟨earlier, bound, equal⟩ := ih (first + more) (by omega)
        exact ⟨earlier, bound, by rw [equal, stepped_add, same, stepped_add]⟩

/-- A machine that runs on for as many steps as it has states never ends. -/
theorem Exhausts.forever (exhausts : machine.Exhausts machine.stateCount) (budget : Nat) :
    machine.Exhausts budget := by
  obtain ⟨first, later, order, within, same⟩ := exhausts.exists_repetition
  refine ⟨exhausts.running, fun count _ => ?_⟩
  obtain ⟨earlier, bound, equal⟩ := exists_stepped_eq order same count
  rw [← equal]
  exact exhausts.runs earlier (by omega)

/-- A larger budget changes nothing if the smaller one is not used up. -/
theorem runFor_eq_of_le {budget more : Nat} (ends : ¬ machine.Exhausts budget) (order : budget ≤ more) :
    machine.runFor more = machine.runFor budget := by
  obtain ⟨outcome, how⟩ := exists_ends machine budget
  rw [how.runFor_eq, runFor_eq_iff_ends]
  cases how with
  | halts within halts => exact .halts (Nat.le_trans within order) halts
  | fails within fails => exact .fails (Nat.lt_of_lt_of_le within order) fails
  | exhausted exhausts => exact absurd exhausts ends

/-- A run without a limit is one with any limit that is not used up. -/
theorem run_none_eq {budget : Nat} (ends : ¬ machine.Exhausts budget) :
    machine.run none = machine.run (some budget) := by
  have also : ¬ machine.Exhausts machine.stateCount := fun exhausts => ends (exhausts.forever budget)
  calc machine.runFor machine.stateCount
      = machine.runFor (max machine.stateCount budget) := (runFor_eq_of_le also (Nat.le_max_left _ _)).symm
    _ = machine.runFor budget := runFor_eq_of_le ends (Nat.le_max_right _ _)

/-- A run without a limit gives up only on a machine that never ends. -/
theorem exhausts_of_run_none {steps : Nat} (gaveUp : (machine.run none).result = .error (.stepBudgetExhausted steps))
    (budget : Nat) : machine.Exhausts budget :=
  (exhausts_of_runFor gaveUp).forever budget

theorem HaltsAfter.not_exhausts {budget : Nat} (halts : machine.HaltsAfter count) (within : count ≤ budget) :
    ¬ machine.Exhausts budget := by
  intro exhausts
  simpa [halts.halted] using (exhausts.of_le within).running_stepped

theorem FailsAfter.not_exhausts {budget : Nat} {fault : Fault} (fails : machine.FailsAfter count fault)
    (within : count < budget) : ¬ machine.Exhausts budget := by
  intro exhausts
  simpa [fails.fails] using exhausts.runs count within

end Repetition

/-- A run with a budget takes the steps of its machine one after the other, and halts, fails or gives up after exactly
    those that its outcome tells.  A run that gave up and is taken up again ends like a single run with both budgets,
    with the steps of the first run counted as well; and without a limit a machine that ends does so as within any
    limit that is large enough. -/
theorem budgeted_runs_iterate_steps (machine : Machine) :
    (∀ budget outcome, machine.run (some budget) = outcome ↔ machine.Ends budget outcome) ∧
    (∀ count steps, (machine.stepped count).step.result ≠ .error (.stepBudgetExhausted steps)) ∧
    (∀ budget more, (machine.run (some budget)).result = .error (.stepBudgetExhausted budget) →
      machine.run (some (budget + more)) = ((machine.run (some budget)).machine.run (some more)).after budget) ∧
    (∀ count budget, machine.HaltsAfter count → count ≤ budget → machine.run none = machine.run (some budget)) ∧
    ∀ count fault budget, machine.FailsAfter count fault → count < budget →
      machine.run none = machine.run (some budget) := by
  refine ⟨fun budget outcome => runFor_eq_iff_ends, fun count => step_ne_stepBudgetExhausted _, ?_,
    fun count budget halts within => run_none_eq (halts.not_exhausts within),
    fun count fault budget fails within => run_none_eq (fails.not_exhausts within)⟩
  intro budget more gaveUp
  have exhausts : machine.Exhausts budget := exhausts_of_runFor gaveUp
  have left := (Ends.exhausted exhausts).runFor_eq
  change machine.runFor (budget + more) = ((machine.runFor budget).machine.runFor more).after budget
  rw [left]
  exact exhausts.runs.advances.runFor_add more

/-- Two instructions: one does nothing, and the other one halts. -/
def shortMachine : Machine :=
  .ofMemory (.ofBytes [Head.encode ⟨.nop, .r0, .accumulator⟩, Head.encode ⟨.halt, .r0, .accumulator⟩])

theorem budgeted_runs_iterate_steps_short :
    (shortMachine.run (some 1)).result = .error (.stepBudgetExhausted 1) ∧
      (shortMachine.run (some (1 + 1))).result = .ok 2 ∧ (shortMachine.run none).result = .ok 2 := by
  obtain ⟨ends, -, resumed, halted, -⟩ := budgeted_runs_iterate_steps shortMachine
  have gaveUp : (shortMachine.run (some 1)).result = .error (.stepBudgetExhausted 1) := by decide
  have whole : (shortMachine.run (some (1 + 1))).result = .ok 2 := by
    rw [resumed 1 1 gaveUp]
    decide
  have halts : shortMachine.HaltsAfter 2 := by
    refine ⟨fun earlier bound => ?_, by decide⟩
    obtain rfl | rfl : earlier = 0 ∨ earlier = 1 := by omega
    · exact ⟨by decide, .running, by decide⟩
    · exact ⟨by decide, .halted, by decide⟩
  exact ⟨gaveUp, whole, by rw [halted 2 2 halts (Nat.le_refl _)]; exact whole⟩

end WordMachine.Machine
