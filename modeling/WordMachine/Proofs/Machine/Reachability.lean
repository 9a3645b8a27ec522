import WordMachine.Proofs.Machine.Access
import WordMachine.Proofs.Machine.Budget

/-! # Machines that are called

A machine is used by calls that step it, run it within a budget, or set a register.  Whatever they report, they amount
to single steps and assignments one after the other.  The counter stays where a step can leave it: behind an
instruction that lies in memory, or at a word that was jumped to.  No address that a step computes wraps around, since
a counter that is too large is refused before anything is added to it.
-/

namespace WordMachine.Machine

open Reference (length_eq_size)

inductive Call where
  | step
  | run (budget : Nat)
  | setRegister (register : Register) (word : UInt16)
  deriving Repr, DecidableEq

/-- What a call leaves, whether it fails or not. -/
def Call.perform : Call → Machine → Machine
  | .step, machine => machine.step.machine
  | .run budget, machine => (machine.run (some budget)).machine
  | .setRegister register word, machine => machine.setRegister register word

def afterCalls (machine : Machine) (calls : List Call) : Machine :=
  calls.foldl (fun machine call => call.perform machine) machine

/-- The machines that a run steps, the last of them also if its step fails. -/
def steppedBy (machine : Machine) : Nat → List Machine
  | 0 => []
  | budget + 1 =>
      if machine.halted then []
      else
        machine ::
          match machine.step.result with
          | .error _ => []
          | .ok _ => machine.step.machine.steppedBy budget

def Call.stepped : Call → Machine → List Machine
  | .step, machine => [machine]
  | .run budget, machine => machine.steppedBy budget
  | .setRegister _ _, _ => []

/-- The machines that some calls step. -/
def steppedIn (machine : Machine) : List Call → List Machine
  | [] => []
  | call :: rest => call.stepped machine ++ (call.perform machine).steppedIn rest

/-- Steps and assignments that lead from one machine to another, with the machines that are stepped. -/
inductive Trace : Machine → List Machine → Machine → Prop where
  | done (machine : Machine) : Trace machine [] machine
  | step {machine last : Machine} {stepped : List Machine} (rest : Trace machine.step.machine stepped last) :
      Trace machine (machine :: stepped) last
  | assign {machine last : Machine} {stepped : List Machine} (register : Register) (word : UInt16)
      (rest : Trace (machine.setRegister register word) stepped last) : Trace machine stepped last

/-- The next step executes a halt. -/
def Halts (machine : Machine) : Prop := ∃ head operand, machine.Executes head operand ∧ head.opcode = .halt

/-- The next step jumps: always, or because a register is zero. -/
def Jumps (machine : Machine) : Prop :=
  ∃ head operand, machine.Executes head operand ∧
    (head.opcode = .jump ∨ head.opcode = .jumpIfZero ∧ machine.register head.register = 0)

/-- A machine in bounds, with a memory of `size` bytes. -/
structure InBounds (size : Nat) (machine : Machine) : Prop where
  memory : machine.memory.size = size
  pc : machine.pc.toNat ≤ max size 65535
  halted : machine.halted = true → machine.pc.toNat ≤ size

section Steps

variable {machine : Machine} {head : Head} {operand : Operand}

theorem inside_of_fetch (fetched : machine.fetch = .ok head) :
    machine.pc.toNat < machine.memory.size ∧ machine.pc.toNat < 2 ^ 61 := by
  obtain ⟨byte, read, -⟩ := exists_of_bind_eq_ok fetched
  obtain ⟨addressable, found⟩ := Memory.readByte_eq_ok_iff.1 (of_mapError_eq_ok read)
  refine ⟨(Array.getElem?_eq_some_iff.1 found).1, ?_⟩
  rw [Memory.bitAddressBound, UInt64.size] at addressable
  omega

/-- The counter never wraps around on the way to an operand. -/
theorem toNat_pc_succ (fetched : machine.fetch = .ok head) : (machine.pc + 1).toNat = machine.pc.toNat + 1 := by
  have near := (inside_of_fetch fetched).2
  rw [UInt64.toNat_add, UInt64.toNat_one]
  omega

theorem toNat_pc_add_size (fetched : machine.fetch = .ok head) :
    (machine.pc + UInt64.ofNat head.size).toNat = machine.pc.toNat + head.size := by
  have near := (inside_of_fetch fetched).2
  rw [toNat_behind (by omega), length_eq_size]

/-- An instruction that is executed lies in memory. -/
theorem Executes.next_le (executes : machine.Executes head operand) :
    machine.pc.toNat + head.size ≤ machine.memory.size := by
  have inside := (inside_of_fetch executes.fetched).1
  have next := toNat_pc_succ executes.fetched
  have field : .word (machine.pc + 1).toNat ∈ machine.operandReads head →
      (Access.word (machine.pc + 1).toNat).Inside machine.memory := by
    intro member
    rcases operandRead_inside_or_refused member with inside | refused
    · exact inside
    · rw [executes.resolved] at refused
      cases refused
  rw [← length_eq_size]
  unfold operandReads at field
  cases mode : head.mode with
  | accumulator => exact inside
  | immediate | direct =>
      have last := field (by simp [mode])
      simp only [Access.Inside, Access.word] at last
      simp only [Reference.length]
      omega

theorem toNat_target_lt (operand : Operand) : operand.target.toNat < 65536 := by
  rw [Operand.target, UInt16.toNat_toUInt64]
  exact (operand.address.getD operand.value).toNat_lt

/-- What an operation does to the counter and the halted state: a jump goes to a word, and a halt halts. -/
theorem execute_control (machine : Machine) (origin : UInt64) (head : Head) (operand : Operand) :
    (machine.execute origin head operand).machine.pc =
        (if head.opcode = .jump ∨ head.opcode = .jumpIfZero ∧ machine.register head.register = 0 then operand.target
          else machine.pc) ∧
      (machine.execute origin head operand).machine.halted = (machine.halted || head.opcode = .halt) := by
  obtain ⟨opcode, register, mode⟩ := head
  cases opcode with
  | jumpIfZero =>
      by_cases zero : machine.register register = 0
      · simp [execute, continues, jumpTo, zero]
      · simp [execute, continues, zero]
  | store =>
      simp only [execute, executeStore]
      split
      · split <;> simp [continues]
      · simp
      · simp [assigns, continues, setRegister]
  | divide =>
      simp only [execute]
      split <;> simp [assigns, continues, setRegister]
  | _ => simp [execute, assigns, continues, setRegister, jumpTo]

/-- A step that executes no instruction leaves the machine as it is. -/
theorem step_of_not_executes (idle : ∀ head operand, ¬ machine.Executes head operand) :
    machine.step.machine = machine := by
  cases running : machine.halted with
  | true => rw [step_of_halted running]
  | false =>
      cases fetched : machine.fetch with
      | error fault => simp [step, running, fetched]
      | ok head =>
          cases resolved : machine.operand head with
          | error fault => rw [step_of_operand_error running fetched resolved]
          | ok operand => exact absurd ⟨running, fetched, resolved⟩ (idle head operand)

namespace Executes

theorem head_unique {other : Head} {otherOperand : Operand} (executes : machine.Executes head operand)
    (also : machine.Executes other otherOperand) : other = head :=
  Except.ok.inj (also.fetched.symm.trans executes.fetched)

variable (executes : machine.Executes head operand)

include executes

theorem jumps_iff : machine.Jumps ↔
    head.opcode = .jump ∨ head.opcode = .jumpIfZero ∧ machine.register head.register = 0 := by
  constructor
  · rintro ⟨other, otherOperand, also, turns⟩
    exact executes.head_unique also ▸ turns
  · exact fun turns => ⟨head, operand, executes, turns⟩

theorem halts_iff : machine.Halts ↔ head.opcode = .halt := by
  constructor
  · rintro ⟨other, otherOperand, also, halt⟩
    exact executes.head_unique also ▸ halt
  · exact fun halt => ⟨head, operand, executes, halt⟩

/-- An instruction that jumps leads to its target, and every other one to the end of itself. -/
theorem pc_step_eq [Decidable machine.Jumps] :
    machine.step.machine.pc = if machine.Jumps then operand.target else machine.pc + UInt64.ofNat head.size := by
  obtain ⟨pc, -⟩ := execute_control (machine.jumpTo (machine.pc + UInt64.ofNat head.size)) machine.pc head operand
  rw [← executes.step_eq] at pc
  rw [pc]
  exact if_congr executes.jumps_iff.symm rfl rfl

theorem toNat_pc_step (straight : ¬ machine.Jumps) :
    machine.step.machine.pc.toNat = machine.pc.toNat + head.size := by
  classical
  rw [executes.pc_step_eq, if_neg straight, toNat_pc_add_size executes.fetched]

/-- An instruction that jumps leads to a word, and every other one to the end of itself, which lies in memory. -/
theorem pc_step :
    machine.Jumps ∧ machine.step.machine.pc.toNat ≤ 65535 ∨
      ¬ machine.Jumps ∧ machine.step.machine.pc.toNat ≤ machine.memory.size := by
  classical
  by_cases turns : machine.Jumps
  · refine .inl ⟨turns, ?_⟩
    rw [executes.pc_step_eq, if_pos turns]
    exact Nat.le_of_lt_succ (toNat_target_lt operand)
  · refine .inr ⟨turns, ?_⟩
    rw [executes.toNat_pc_step turns]
    exact executes.next_le

theorem halted_step : machine.step.machine.halted = true ↔ machine.Halts := by
  obtain ⟨-, halted⟩ := execute_control (machine.jumpTo (machine.pc + UInt64.ofNat head.size)) machine.pc head operand
  rw [← executes.step_eq] at halted
  rw [executes.halts_iff, halted]
  simp [jumpTo, executes.running]

end Executes

theorem Halts.not_jumps (halts : machine.Halts) : ¬ machine.Jumps := by
  obtain ⟨head, operand, executes, halt⟩ := halts
  rw [executes.jumps_iff, halt]
  simp

/-- A machine is halted after a step if it was before, or if the step executed a halt. -/
theorem halted_step_iff (machine : Machine) :
    machine.step.machine.halted = true ↔ machine.halted = true ∨ machine.Halts := by
  by_cases busy : ∃ head operand, machine.Executes head operand
  · obtain ⟨head, operand, executes⟩ := busy
    rw [executes.halted_step]
    simp [executes.running]
  · simp only [not_exists] at busy
    have idle : ¬ machine.Halts := fun ⟨head, operand, executes, _⟩ => busy head operand executes
    simp [step_of_not_executes busy, idle]

end Steps

namespace InBounds

variable {size : Nat} {machine last : Machine} {stepped : List Machine}

theorem ofMemory (memory : Memory) : (Machine.ofMemory memory).InBounds memory.size :=
  ⟨rfl, Nat.zero_le _, fun _ => Nat.zero_le _⟩

theorem step (bounds : machine.InBounds size) : machine.step.machine.InBounds size := by
  by_cases busy : ∃ head operand, machine.Executes head operand
  · obtain ⟨head, operand, executes⟩ := busy
    refine ⟨(size_step machine).trans bounds.memory, ?_, fun halted => ?_⟩
    · rcases executes.pc_step with ⟨-, word⟩ | ⟨-, inside⟩
      · exact Nat.le_trans word (Nat.le_max_right _ _)
      · exact Nat.le_trans inside (bounds.memory ▸ Nat.le_max_left _ _)
    · have straight := (executes.halted_step.1 halted).not_jumps
      rcases executes.pc_step with ⟨turns, -⟩ | ⟨-, inside⟩
      · exact absurd turns straight
      · exact bounds.memory ▸ inside
  · simp only [not_exists] at busy
    rw [step_of_not_executes busy]
    exact bounds

theorem setRegister (bounds : machine.InBounds size) (register : Register) (word : UInt16) :
    (machine.setRegister register word).InBounds size :=
  ⟨bounds.memory, bounds.pc, bounds.halted⟩

/-- Machines stay in bounds. -/
theorem trace (bounds : machine.InBounds size) (trace : Trace machine stepped last) :
    last.InBounds size ∧ ∀ earlier ∈ stepped, earlier.InBounds size := by
  induction trace with
  | done machine => exact ⟨bounds, List.forall_mem_nil _⟩
  | step _ ih =>
      obtain ⟨after, others⟩ := ih bounds.step
      exact ⟨after, List.forall_mem_cons.2 ⟨bounds, others⟩⟩
  | assign register word _ ih => exact ih (bounds.setRegister register word)

/-- After a step that succeeds and is no jump the counter is not behind the end of memory. -/
theorem pc_step_le (bounds : machine.InBounds size) {status : Status} (success : machine.step.result = .ok status)
    (straight : ¬ machine.Jumps) : machine.step.machine.pc.toNat ≤ size := by
  cases running : machine.halted with
  | true =>
      rw [step_of_halted running]
      exact bounds.halted running
  | false =>
      obtain ⟨head, operand, executes⟩ := exists_executes running success
      rcases executes.pc_step with ⟨turns, -⟩ | ⟨-, inside⟩
      · exact absurd turns straight
      · exact bounds.memory ▸ inside

end InBounds

namespace Trace

variable {machine mid last : Machine} {stepped more : List Machine}

theorem append (first : Trace machine stepped mid) (second : Trace mid more last) :
    Trace machine (stepped ++ more) last := by
  induction first with
  | done _ => exact second
  | step _ ih => exact .step (ih second)
  | assign register word _ ih => exact .assign register word (ih second)

/-- A run is the steps that it takes. -/
theorem runFrom (taken budget : Nat) (machine : Machine) :
    Trace machine (machine.steppedBy budget) (machine.runFrom taken budget).machine := by
  induction budget generalizing taken machine with
  | zero =>
      cases running : machine.halted with
      | true =>
          rw [runFrom_of_halted running]
          exact .done machine
      | false =>
          rw [runFrom_zero running]
          exact .done machine
  | succ budget ih =>
      cases running : machine.halted with
      | true =>
          have idle : machine.steppedBy (budget + 1) = [] := by simp [steppedBy, running]
          rw [runFrom_of_halted running, idle]
          exact .done machine
      | false =>
          cases result : machine.step.result with
          | error fault =>
              have last : machine.steppedBy (budget + 1) = [machine] := by simp [steppedBy, running, result]
              rw [runFrom_of_error running result, last]
              exact .step (.done _)
          | ok status =>
              have goesOn : machine.steppedBy (budget + 1) = machine :: machine.step.machine.steppedBy budget := by
                simp [steppedBy, running, result]
              rw [runFrom_of_ok running result, goesOn]
              exact .step (ih (taken + 1) machine.step.machine)

/-- Calls are the steps that they take, with assignments in between. -/
theorem calls (machine : Machine) (calls : List Call) :
    Trace machine (machine.steppedIn calls) (machine.afterCalls calls) := by
  induction calls generalizing machine with
  | nil => exact .done machine
  | cons call rest ih =>
      have first : Trace machine (call.stepped machine) (call.perform machine) := by
        cases call with
        | step => exact .step (.done _)
        | run budget => exact .runFrom 0 budget machine
        | setRegister register word => exact .assign register word (.done _)
      exact first.append (ih _)

/-- A machine is halted at the end if it was at first, or if one of the steps executed a halt. -/
theorem halted_iff (trace : Trace machine stepped last) :
    last.halted = true ↔ machine.halted = true ∨ ∃ earlier ∈ stepped, earlier.Halts := by
  induction trace with
  | done machine => simp
  | step _ ih => rw [ih, halted_step_iff, List.exists_mem_cons_iff, or_assoc]
  | assign register word _ ih => exact ih

/-- Nothing but its registers changes of a machine that is halted. -/
theorem of_halted (trace : Trace machine stepped last) (halted : machine.halted = true) :
    last.halted = true ∧ last.pc = machine.pc ∧ last.memory = machine.memory := by
  induction trace with
  | done machine => exact ⟨halted, rfl, rfl⟩
  | step _ ih =>
      rw [step_of_halted halted] at ih
      exact ih halted
  | assign register word _ ih => exact ih halted

end Trace

/-- Machines that are called stay in bounds.  Whatever calls are made and whether they fail, memory keeps its size, and
    the counter stands in memory, at its end, or at a word; it is not behind the end after a step that succeeds and is
    no jump.  A machine has halted if one of its steps executed a halt, and then it stays as it is but for assignments
    to its registers.  In all states, also with a counter that was set to any number, what a step adds to the counter
    and the bit addresses of all it accesses are the same in 64 bits as in unbounded numbers, or the access is refused
    as one outside memory. -/
theorem called_machines_stay_in_bounds :
    (∀ (memory : Memory) (calls : List Call),
      let machine := (ofMemory memory).afterCalls calls
      machine.memory.size = memory.size ∧ machine.pc.toNat ≤ max memory.size 65535 ∧
        (∀ earlier ∈ (ofMemory memory).steppedIn calls, ∀ status, earlier.step.result = .ok status →
          ¬ earlier.Jumps → earlier.step.machine.pc.toNat ≤ memory.size) ∧
        (machine.halted = true ↔ ∃ earlier ∈ (ofMemory memory).steppedIn calls, earlier.Halts) ∧
        (machine.halted = true → machine.step = ⟨.ok .halted, machine⟩ ∧
          (∀ limit, machine.run limit = ⟨.ok 0, machine⟩) ∧
          ∀ more, (machine.afterCalls more).halted = true ∧ (machine.afterCalls more).pc = machine.pc ∧
            (machine.afterCalls more).memory = machine.memory)) ∧
    ∀ machine : Machine, machine.memory.size < 2 ^ 61 →
      machine.memory.bitSize < Memory.bitAddressBound ∧
      (∀ head, machine.fetch = .ok head → (machine.pc + 1).toNat = machine.pc.toNat + 1 ∧
        (machine.pc + UInt64.ofNat head.size).toNat = machine.pc.toNat + head.size) ∧
      ∀ access ∈ machine.reads ++ machine.writes, access.Exact ∧ access.Inside machine.memory ∨
        machine.step.result = .error (access.refusal machine.memory) := by
  constructor
  · intro memory calls machine
    have trace : Trace (ofMemory memory) _ machine := Trace.calls (ofMemory memory) calls
    obtain ⟨bounds, earlierBounds⟩ := (InBounds.ofMemory memory).trace trace
    refine ⟨bounds.memory, bounds.pc, ?_, ?_, fun halted => ⟨step_of_halted halted, ?_, ?_⟩⟩
    · intro earlier member status success straight
      exact (earlierBounds earlier member).pc_step_le success straight
    · rw [trace.halted_iff]
      simp [ofMemory]
    · exact fun limit => runFrom_of_halted halted 0
    · exact fun more => (Trace.calls machine more).of_halted halted
  · intro machine small
    refine ⟨Memory.addressable_of_lt small, fun head fetched => ⟨toNat_pc_succ fetched, toNat_pc_add_size fetched⟩,
      fun access member => ?_⟩
    have allowed : access.Inside machine.memory ∨ machine.step.result = .error (access.refusal machine.memory) :=
      (List.mem_append.1 member).elim read_inside_or_refused write_inside_or_refused
    rcases allowed with inside | refused
    · exact .inl ⟨Access.exact_of_inside small inside, inside⟩
    · exact .inr refused

/-- A jump far behind the end of memory. -/
def farJump : Memory := .ofBytes [Head.encode ⟨.jump, .r0, .immediate⟩, 0xFF, 0xFF]

theorem called_machines_stay_in_bounds_far_jump :
    ((ofMemory farJump).afterCalls [.step, .setRegister .r1 7, .run 5]).pc = 65535 ∧
      ((ofMemory farJump).afterCalls [.step, .setRegister .r1 7, .run 5]).pc.toNat ≤ max farJump.size 65535 ∧
      ((ofMemory farJump).jumpTo 0xFFFFFFFFFFFFFFFF).step.result =
        .error (.memory (.outOfBounds 0xFFFFFFFFFFFFFFFF 8 24)) := by
  obtain ⟨called, computed⟩ := called_machines_stay_in_bounds
  obtain ⟨-, bound, -⟩ := called farJump [.step, .setRegister .r1 7, .run 5]
  obtain ⟨-, -, accesses⟩ := computed ((ofMemory farJump).jumpTo 0xFFFFFFFFFFFFFFFF) (by decide)
  refine ⟨by decide, bound, ?_⟩
  rcases accesses (.byte 0xFFFFFFFFFFFFFFFF) (by decide) with ⟨-, inside⟩ | refused
  · exact absurd inside (Nat.not_le.2 (by decide))
  · rw [refused]
    rfl

end WordMachine.Machine
