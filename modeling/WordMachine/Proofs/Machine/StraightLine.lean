import WordMachine.Proofs.Machine.Reachability

/-! # Machines that take no jump

Without a jump the program counter moves on behind each instruction, and each instruction that is executed lies in
memory.  So with every step there is less memory in front of the counter, whatever the steps write there: only a jump
leads back, and a machine that takes no jump ends before it has taken more steps than there are bytes.
-/

namespace WordMachine.Machine

/-- None of so many steps takes a jump. -/
def Straight (machine : Machine) (count : Nat) : Prop :=
  ∀ earlier < count, ¬ (machine.stepped earlier).Jumps

/-- How many bytes of memory there are from the counter on. -/
def ahead (machine : Machine) : Nat := machine.memory.size - machine.pc.toNat

section Steps

variable {machine : Machine}

/-- A step that does not jump and leaves the machine running leads upwards, to the end of memory at most. -/
theorem pc_step_of_straight (success : machine.step.result = .ok .running) (straight : ¬ machine.Jumps) :
    machine.pc.toNat < machine.step.machine.pc.toNat ∧ machine.step.machine.pc.toNat ≤ machine.memory.size := by
  obtain ⟨head, operand, executes⟩ := exists_executes (running_of_step success (by simp)) success
  have positive : 0 < head.size := Nat.lt_of_lt_of_le Nat.one_pos (Nat.le_add_right 1 _)
  rw [executes.toNat_pc_step straight]
  exact ⟨Nat.lt_add_of_pos_right positive, executes.next_le⟩

theorem not_jumps_of_fetch {head : Head} (fetched : machine.fetch = .ok head)
    (plain : head.opcode ≠ .jump ∧ head.opcode ≠ .jumpIfZero) : ¬ machine.Jumps := by
  rintro ⟨other, operand, executes, turns⟩
  cases Except.ok.inj (executes.fetched.symm.trans fetched)
  exact turns.elim plain.1 fun branches => plain.2 branches.1

end Steps

section Runs

variable {machine : Machine} {count first later : Nat}

theorem StaysRunning.of_le (runs : machine.StaysRunning later) (within : first ≤ later) :
    machine.StaysRunning first :=
  fun earlier bound => runs earlier (Nat.lt_of_lt_of_le bound within)

theorem StaysRunning.drop (runs : machine.StaysRunning (first + count)) :
    (machine.stepped first).StaysRunning count := by
  intro earlier bound
  rw [← stepped_add]
  exact runs _ (Nat.add_lt_add_left bound first)

theorem Straight.of_le (straight : machine.Straight later) (within : first ≤ later) : machine.Straight first :=
  fun earlier bound => straight earlier (Nat.lt_of_lt_of_le bound within)

/-- The counter has moved on by a byte at least for each step. -/
theorem StaysRunning.add_le_pc (runs : machine.StaysRunning count) (straight : machine.Straight count) :
    machine.pc.toNat + count ≤ (machine.stepped count).pc.toNat := by
  induction count with
  | zero => exact Nat.le_refl _
  | succ count ih =>
      have before := ih (runs.of_le (Nat.le_succ count)) (straight.of_le (Nat.le_succ count))
      have last := Nat.lt_succ_self count
      obtain ⟨rises, -⟩ := pc_step_of_straight (runs count last) (straight count last)
      rw [stepped_succ]
      omega

theorem StaysRunning.le_ahead (runs : machine.StaysRunning count) (straight : machine.Straight count) :
    count ≤ machine.ahead := by
  cases count with
  | zero => exact Nat.zero_le _
  | succ count =>
      have moved := runs.add_le_pc straight
      have last := Nat.lt_succ_self count
      obtain ⟨-, inside⟩ := pc_step_of_straight (runs count last) (straight count last)
      rw [size_stepped] at inside
      rw [stepped_succ] at moved
      rw [ahead]
      omega

/-- A counter that has not moved upwards was led back by a jump. -/
theorem StaysRunning.exists_jumps (runs : machine.StaysRunning later) (order : first < later)
    (back : (machine.stepped later).pc ≤ (machine.stepped first).pc) :
    ∃ between, first ≤ between ∧ between < later ∧ (machine.stepped between).Jumps := by
  obtain ⟨more, rfl⟩ := Nat.exists_eq_add_of_lt order
  rw [Nat.add_assoc] at runs back
  by_contra none
  have straight : (machine.stepped first).Straight (more + 1) := by
    intro between bound jumps
    rw [← stepped_add] at jumps
    exact none ⟨first + between, Nat.le_add_right _ _, by omega, jumps⟩
  have moved := runs.drop.add_le_pc straight
  rw [← stepped_add] at moved
  have stays : (machine.stepped (first + (more + 1))).pc.toNat ≤ (machine.stepped first).pc.toNat := back
  omega

/-- A machine that takes no jump does not go on for longer than there is memory in front of it. -/
theorem not_exhausts_of_straight (straight : ∀ count, machine.StaysRunning count → ¬ (machine.stepped count).Jumps) :
    ¬ machine.Exhausts (machine.ahead + 1) := by
  intro exhausts
  have within := exhausts.runs.le_ahead fun earlier bound =>
    straight earlier (exhausts.runs.of_le (Nat.le_of_lt bound))
  omega

end Runs

/-- A machine only loops through jumps.  While its steps take no jump they lead upwards, so that there are no more of
    them than bytes of memory from the counter on, and between two places of which the second is not above the first
    there is a jump.  A machine that never takes a jump halts or fails with one more step at the most, also where it
    overwrites what it executes, and so does its run without a limit. -/
theorem loops_only_through_jumps (machine : Machine) :
    (∀ count, machine.StaysRunning count → machine.Straight count →
      (∀ earlier < count, (machine.stepped earlier).pc < (machine.stepped (earlier + 1)).pc) ∧
        count ≤ machine.memory.size - machine.pc.toNat) ∧
    (∀ first later, first < later → machine.StaysRunning later →
      (machine.stepped later).pc ≤ (machine.stepped first).pc →
        ∃ between, first ≤ between ∧ between < later ∧ (machine.stepped between).Jumps) ∧
    ((∀ count, machine.StaysRunning count → ¬ (machine.stepped count).Jumps) →
      (∃ count, count ≤ machine.memory.size - machine.pc.toNat + 1 ∧ machine.HaltsAfter count ∧
        machine.run none = ⟨.ok count, machine.stepped count⟩) ∨
      ∃ count fault, count + 1 ≤ machine.memory.size - machine.pc.toNat + 1 ∧ machine.FailsAfter count fault ∧
        machine.run none = ⟨.error fault, machine.stepped (count + 1)⟩) := by
  refine ⟨fun count runs straight => ⟨?_, runs.le_ahead straight⟩,
    fun first later order runs => runs.exists_jumps order, fun straight => ?_⟩
  · intro earlier bound
    rw [stepped_succ]
    exact (pc_step_of_straight (runs earlier bound) (straight earlier bound)).1
  · have ended := not_exhausts_of_straight straight
    obtain ⟨outcome, ends⟩ := exists_ends machine (machine.ahead + 1)
    have whole : machine.run none = outcome := (run_none_eq ended).trans ends.runFor_eq
    cases ends with
    | halts within halts => exact .inl ⟨_, within, halts, whole⟩
    | fails within fails => exact .inr ⟨_, _, within, fails, whole⟩
    | exhausted exhausts => exact absurd exhausts ended

/-- A store that overwrites the jump behind it, and a halt at the end. -/
def jumpEraser : Machine :=
  .ofMemory (.ofBytes [Head.encode ⟨.store, .r1, .direct⟩, 0, 3, Head.encode ⟨.jump, .r0, .immediate⟩, 0, 0,
    Head.encode ⟨.halt, .r0, .accumulator⟩])

theorem loops_only_through_jumps_overwritten :
    jumpEraser.StaysRunning 4 ∧ 4 ≤ jumpEraser.memory.size - jumpEraser.pc.toNat ∧
      ∃ count ≤ 8, jumpEraser.HaltsAfter count ∧ jumpEraser.run none = ⟨.ok count, jumpEraser.stepped count⟩ := by
  obtain ⟨bounded, -, ends⟩ := loops_only_through_jumps jumpEraser
  have runs : jumpEraser.StaysRunning 4 := by
    unfold StaysRunning
    decide
  have plain : ∀ count < 5, ∃ head, (jumpEraser.stepped count).fetch = .ok head ∧
      head.opcode ≠ .jump ∧ head.opcode ≠ .jumpIfZero := by
    intro count bound
    obtain rfl | rfl | rfl | rfl | rfl : count = 0 ∨ count = 1 ∨ count = 2 ∨ count = 3 ∨ count = 4 := by omega
    · exact ⟨⟨.store, .r1, .direct⟩, by decide⟩
    · exact ⟨⟨.nop, .r0, .accumulator⟩, by decide⟩
    · exact ⟨⟨.nop, .r0, .accumulator⟩, by decide⟩
    · exact ⟨⟨.nop, .r0, .accumulator⟩, by decide⟩
    · exact ⟨⟨.halt, .r0, .accumulator⟩, by decide⟩
  have straight : jumpEraser.Straight 5 := by
    intro count bound
    obtain ⟨head, fetched, other⟩ := plain count bound
    exact not_jumps_of_fetch fetched other
  refine ⟨runs, (bounded 4 runs (straight.of_le (by decide))).2, ?_⟩
  have never : ∀ count, jumpEraser.StaysRunning count → ¬ (jumpEraser.stepped count).Jumps := by
    intro count running
    rcases Nat.lt_or_ge count 5 with early | late
    · exact straight count early
    · exact absurd (running 4 late) (by decide)
  rcases ends never with halts | ⟨count, fault, within, fails, -⟩
  · exact halts
  · have succeeds : ∀ earlier < 8, (jumpEraser.stepped earlier).step.result.isOk = true := by decide
    have success := succeeds count within
    rw [fails.fails] at success
    cases success

end WordMachine.Machine
