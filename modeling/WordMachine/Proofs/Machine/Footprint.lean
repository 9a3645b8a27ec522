import WordMachine.Proofs.Machine.Access
import WordMachine.Proofs.Machine.Budget

/-! # What a run reads and writes

A step reads the bytes of its instruction and the word that a direct operand names, and writes only the word of a
direct store.  So steps that succeed do not depend on any other byte, nor on where memory ends: in a memory that is
at least as long and has the same bytes where they read, the same steps are taken and the same bytes are written.
-/

namespace WordMachine.Machine

/-- The addresses of the bytes that some steps read. -/
def readsWithin (machine : Machine) (count : Nat) : List Nat :=
  (List.range count).flatMap fun earlier => addressesOf (machine.stepped earlier).reads

/-- The addresses of the bytes that some steps write. -/
def writesWithin (machine : Machine) (count : Nat) : List Nat :=
  (List.range count).flatMap fun earlier => addressesOf (machine.stepped earlier).writes

/-- The same machine with another memory. -/
def withMemory (machine : Machine) (memory : Memory) : Machine := { machine with memory := memory }

/-- Two memories that change alike: at some addresses the same bytes stand in both afterwards, and all other bytes
    are in each what they were before. -/
structure ChangeAlike (written : List Nat) (memory after other otherAfter : Memory) : Prop where
  agree : ∀ address ∈ written, ∃ byte, after.bytes[address]? = some byte ∧ otherAfter.bytes[address]? = some byte
  kept : ∀ address, address ∉ written → after.bytes[address]? = memory.bytes[address]?
  otherKept : ∀ address, address ∉ written → otherAfter.bytes[address]? = other.bytes[address]?

namespace ChangeAlike

variable {memory mid after other otherMid otherAfter : Memory} {written more : List Nat}

theorem unchanged (memory other : Memory) : ChangeAlike [] memory memory other other :=
  ⟨fun _ member => absurd member List.not_mem_nil, fun _ _ => rfl, fun _ _ => rfl⟩

theorem trans (first : ChangeAlike written memory mid other otherMid)
    (second : ChangeAlike more mid after otherMid otherAfter) :
    ChangeAlike (written ++ more) memory after other otherAfter := by
  refine ⟨?_, ?_, ?_⟩
  · intro address member
    by_cases again : address ∈ more
    · exact second.agree address again
    · have before : address ∈ written := (List.mem_append.1 member).resolve_right again
      rw [second.kept address again, second.otherKept address again]
      exact first.agree address before
  · intro address untouched
    rw [List.mem_append, not_or] at untouched
    rw [second.kept address untouched.2, first.kept address untouched.1]
  · intro address untouched
    rw [List.mem_append, not_or] at untouched
    rw [second.otherKept address untouched.2, first.otherKept address untouched.1]

/-- Bytes that were equal are equal after a change. -/
theorem bytes_eq (change : ChangeAlike written memory after other otherAfter) {address : Nat}
    (same : other.bytes[address]? = memory.bytes[address]?) :
    otherAfter.bytes[address]? = after.bytes[address]? := by
  by_cases member : address ∈ written
  · obtain ⟨byte, here, there⟩ := change.agree address member
    rw [here, there]
  · rw [change.kept address member, change.otherKept address member, same]

/-- The same word is written in both. -/
theorem putWord {address : Nat} (word : Nat) (inside : address + 2 ≤ memory.size)
    (otherInside : address + 2 ≤ other.size) :
    ChangeAlike (Access.word address).addresses memory (memory.putBytes address (Memory.wordBytes word)) other
      (other.putBytes address (Memory.wordBytes word)) := by
  have length := Memory.length_wordBytes word
  have kept : ∀ {memory : Memory}, address + 2 ≤ memory.size → ∀ target, target ∉ (Access.word address).addresses →
      (memory.putBytes address (Memory.wordBytes word)).bytes[target]? = memory.bytes[target]? := by
    intro memory inside target untouched
    simp only [Access.mem_addresses, Access.word, not_and, Nat.not_lt] at untouched
    rw [Memory.bytes_putBytes _ _ _ _ inside]
    split
    · next behind =>
        have past := untouched behind
        rw [List.getElem?_eq_none (by omega), Option.none_or]
    · rfl
  refine ⟨fun target member => ?_, kept inside, kept otherInside⟩
  obtain ⟨behind, before⟩ := Access.mem_addresses.1 member
  simp only [Access.word] at behind before
  obtain ⟨byte, found⟩ : ∃ byte, (Memory.wordBytes word)[target - address]? = some byte :=
    ⟨_, List.getElem?_eq_getElem (by omega)⟩
  have puts : ∀ {memory : Memory}, address + 2 ≤ memory.size →
      (memory.putBytes address (Memory.wordBytes word)).bytes[target]? = some byte := by
    intro memory inside
    rw [Memory.bytes_putBytes _ _ _ _ inside, if_pos behind, found, Option.some_or]
  exact ⟨byte, puts inside, puts otherInside⟩

end ChangeAlike

section Steps

variable {machine : Machine} {memory : Memory} {head : Head}

theorem fetch_withMemory (fetched : machine.fetch = .ok head)
    (same : memory.bytes[machine.pc.toNat]? = machine.memory.bytes[machine.pc.toNat]?) :
    (machine.withMemory memory).fetch = .ok head := by
  obtain ⟨byte, read, decoded⟩ := exists_of_bind_eq_ok fetched
  obtain ⟨addressable, found⟩ := Memory.readByte_eq_ok_iff.1 (of_mapError_eq_ok read)
  have again : memory.readByte machine.pc.toNat = .ok byte :=
    Memory.readByte_eq_ok_iff.2 ⟨addressable, same.trans found⟩
  rw [fetch, withMemory, again]
  exact decoded

theorem readWord_of_same {other : Memory} {address : Nat} {word : UInt16} (read : memory.readWord address = .ok word)
    (same : ∀ target ∈ (Access.word address).addresses, other.bytes[target]? = memory.bytes[target]?) :
    other.readWord address = .ok word := by
  obtain ⟨addressable, high, low, first, second, value⟩ := Memory.readWord_eq_ok_iff.1 read
  obtain ⟨sameFirst, sameSecond⟩ := Access.forall_addresses_word.1 same
  exact Memory.readWord_eq_ok_iff.2
    ⟨addressable, high, low, sameFirst.trans first, sameSecond.trans second, value⟩

theorem operandField_withMemory {word : UInt16} (field : machine.operandField = .ok word)
    (same : ∀ target ∈ (Access.word (machine.pc + 1).toNat).addresses,
      memory.bytes[target]? = machine.memory.bytes[target]?) :
    (machine.withMemory memory).operandField = .ok word := by
  have read := readWord_of_same (of_mapError_eq_ok field) same
  rw [operandField, withMemory, read]
  rfl

theorem operand_withMemory {operand : Operand} (resolved : machine.operand head = .ok operand)
    (same : ∀ target ∈ addressesOf (machine.operandReads head),
      memory.bytes[target]? = machine.memory.bytes[target]?) :
    (machine.withMemory memory).operand head = .ok operand := by
  unfold Machine.operand operandReads at *
  cases mode : head.mode with
  | accumulator =>
      rw [mode] at resolved
      exact resolved
  | immediate =>
      rw [mode] at resolved same
      obtain ⟨word, field, rest⟩ := exists_of_bind_eq_ok resolved
      simp only [operandField_withMemory field (forall_addressesOf_cons.1 same).1]
      exact rest
  | direct =>
      rw [mode] at resolved same
      obtain ⟨address, field, rest⟩ := exists_of_bind_eq_ok resolved
      obtain ⟨sameField, same⟩ := forall_addressesOf_cons.1 same
      simp only [operandField_withMemory field sameField]
      cases place : usesAddressOnly head.opcode with
      | true =>
          rw [place] at rest
          exact rest
      | false =>
          rw [place] at rest
          obtain ⟨word, read, rest⟩ := exists_of_bind_eq_ok rest
          simp only [field, place] at same
          have again : (machine.withMemory memory).memory.readWord address.toNat = .ok word :=
            readWord_of_same (of_mapError_eq_ok read) (forall_addressesOf_cons.1 same).1
          simp only [bind, Except.bind, again]
          exact rest

/-- Two transitions with the same effect, from machines that differ in nothing but their memories. -/
structure SameEffect (written : List Nat) (memory other : Memory) (transition otherTransition : Transition) :
    Prop where
  result : otherTransition.result = transition.result
  state : otherTransition.machine = transition.machine.withMemory otherTransition.machine.memory
  change : ChangeAlike written memory transition.machine.memory other otherTransition.machine.memory

theorem executeStore_withMemory {status : Status} {origin : UInt64} {operand : Operand} {address word : UInt16}
    (named : operand.address = some address)
    (success : (machine.executeStore origin .direct operand word).result = .ok status)
    (longer : machine.memory.size ≤ memory.size) :
    SameEffect (Access.word address.toNat).addresses machine.memory memory
      (machine.executeStore origin .direct operand word)
      ((machine.withMemory memory).executeStore origin .direct operand word) := by
  cases written : machine.memory.writeWord address.toNat word with
  | error fault => simp [executeStore, named, written] at success
  | ok after =>
      obtain ⟨addressable, inside, rfl⟩ := Memory.writeWord_eq_ok_iff.1 written
      have room := Nat.le_trans inside longer
      have again : (machine.withMemory memory).memory.writeWord address.toNat word = _ :=
        Memory.writeWord_eq_ok addressable room word
      simp only [executeStore, named, written, again]
      exact ⟨rfl, rfl, .putWord word.toNat inside room⟩

/-- Only a direct store looks at memory, and it needs no more of it than the word it writes. -/
theorem execute_withMemory {status : Status} {origin : UInt64} {operand : Operand}
    (success : (machine.execute origin head operand).result = .ok status)
    (longer : machine.memory.size ≤ memory.size) :
    SameEffect (addressesOf (operand.writes head)) machine.memory memory (machine.execute origin head operand)
      ((machine.withMemory memory).execute origin head operand) := by
  have unchanged := ChangeAlike.unchanged machine.memory memory
  obtain ⟨opcode, register, mode⟩ := head
  cases opcode with
  | store =>
      cases mode with
      | direct =>
          cases named : operand.address with
          | none =>
              simp only [execute, executeStore, Operand.writes, named]
              exact ⟨rfl, rfl, unchanged⟩
          | some address =>
              simp only [Operand.writes, named]
              exact executeStore_withMemory named success longer
      | _ => exact ⟨rfl, rfl, unchanged⟩
  | jumpIfZero =>
      by_cases zero : machine.register register = 0
      · have also : (machine.withMemory memory).register register = 0 := zero
        simp only [execute, zero, also, if_true]
        exact ⟨rfl, rfl, unchanged⟩
      · have also : (machine.withMemory memory).register register ≠ 0 := zero
        simp only [execute, zero, also, if_false]
        exact ⟨rfl, rfl, unchanged⟩
  | divide =>
      by_cases zero : operand.value = 0
      · simp only [execute, zero, if_true]
        exact ⟨rfl, rfl, unchanged⟩
      · simp only [execute, zero, if_false]
        exact ⟨rfl, rfl, unchanged⟩
  | _ => exact ⟨rfl, rfl, unchanged⟩

/-- A step that succeeds has the same effect in every memory that is at least as long and holds the same bytes where
    the step reads. -/
theorem step_withMemory {status : Status} (success : machine.step.result = .ok status)
    (longer : machine.memory.size ≤ memory.size)
    (same : ∀ address ∈ addressesOf machine.reads, memory.bytes[address]? = machine.memory.bytes[address]?) :
    SameEffect (addressesOf machine.writes) machine.memory memory machine.step (machine.withMemory memory).step := by
  cases running : machine.halted with
  | true =>
      have also : (machine.withMemory memory).halted = true := running
      rw [step_of_halted running, step_of_halted also, writes, running]
      exact ⟨rfl, rfl, .unchanged _ _⟩
  | false =>
      obtain ⟨head, operand, executes⟩ := exists_executes running success
      rw [executes.reads_eq, forall_addressesOf_cons] at same
      have sameHead := same.1 _ (Access.mem_addresses.2 ⟨Nat.le_refl _, Nat.lt_succ_self _⟩)
      have again : (machine.withMemory memory).Executes head operand :=
        ⟨running, fetch_withMemory executes.fetched sameHead, operand_withMemory executes.resolved same.2⟩
      rw [executes.step_eq] at success ⊢
      rw [again.step_eq, executes.writes_eq]
      exact execute_withMemory success longer

end Steps

section Runs

variable {machine : Machine} {memory : Memory} {count : Nat}

theorem mem_readsWithin {address : Nat} :
    address ∈ machine.readsWithin count ↔ ∃ earlier < count, address ∈ addressesOf (machine.stepped earlier).reads := by
  simp [readsWithin]

theorem writesWithin_succ (machine : Machine) (count : Nat) :
    machine.writesWithin (count + 1) = machine.writesWithin count ++ addressesOf (machine.stepped count).writes := by
  simp [writesWithin, List.range_succ]

/-- Steps that succeed, and another memory that has all that they read. -/
structure Supports (machine : Machine) (count : Nat) (memory : Memory) : Prop where
  success : ∀ earlier < count, ∃ status, (machine.stepped earlier).step.result = .ok status
  longer : machine.memory.size ≤ memory.size
  same : ∀ address ∈ machine.readsWithin count, memory.bytes[address]? = machine.memory.bytes[address]?

theorem Supports.of_le {fewer : Nat} (supports : machine.Supports count memory) (order : fewer ≤ count) :
    machine.Supports fewer memory := by
  refine ⟨fun earlier bound => supports.success earlier (Nat.lt_of_lt_of_le bound order), supports.longer, ?_⟩
  intro address member
  obtain ⟨earlier, bound, read⟩ := mem_readsWithin.1 member
  exact supports.same address (mem_readsWithin.2 ⟨earlier, Nat.lt_of_lt_of_le bound order, read⟩)

/-- One more step has the same effect in the other memory.  What it reads was equal at first, or was written in the
    meantime. -/
theorem Supports.step {mid : Memory} (supports : machine.Supports (count + 1) memory)
    (stepped : (machine.withMemory memory).stepped count = (machine.stepped count).withMemory mid)
    (change : ChangeAlike (machine.writesWithin count) machine.memory (machine.stepped count).memory memory mid) :
    SameEffect (addressesOf (machine.stepped count).writes) (machine.stepped count).memory mid
      (machine.stepped count).step ((machine.withMemory memory).stepped count).step := by
  obtain ⟨status, success⟩ := supports.success count (Nat.lt_succ_self count)
  have sizes : (machine.stepped count).memory.size ≤ mid.size := by
    have kept := size_stepped (machine.withMemory memory) count
    rw [stepped] at kept
    have size : mid.size = memory.size := kept
    rw [size_stepped, size]
    exact supports.longer
  rw [stepped]
  exact step_withMemory success sizes fun address read =>
    change.bytes_eq (supports.same address (mem_readsWithin.2 ⟨count, Nat.lt_succ_self count, read⟩))

/-- All steps have the same effect in the other memory. -/
theorem Supports.stepped (supports : machine.Supports count memory) :
    ∃ after, (machine.withMemory memory).stepped count = (machine.stepped count).withMemory after ∧
      ChangeAlike (machine.writesWithin count) machine.memory (machine.stepped count).memory memory after := by
  induction count with
  | zero => exact ⟨memory, rfl, .unchanged _ _⟩
  | succ count ih =>
      obtain ⟨mid, stepped, change⟩ := ih (supports.of_le (Nat.le_succ count))
      have effect := supports.step stepped change
      rw [stepped_succ, stepped_succ, writesWithin_succ]
      exact ⟨_, effect.state, change.trans effect.change⟩

theorem Supports.result_eq (supports : machine.Supports count memory) {earlier : Nat} (bound : earlier < count) :
    ((machine.withMemory memory).stepped earlier).step.result = (machine.stepped earlier).step.result := by
  obtain ⟨mid, stepped, change⟩ := (supports.of_le (Nat.le_of_lt bound)).stepped
  exact ((supports.of_le bound).step stepped change).result

/-- A machine that halts does so after as many steps in a memory that has all that they read. -/
theorem Supports.haltsAfter (supports : machine.Supports count memory) (halts : machine.HaltsAfter count) :
    (machine.withMemory memory).HaltsAfter count := by
  refine ⟨fun earlier bound => ?_, ?_⟩
  · obtain ⟨running, status, success⟩ := halts.advances earlier bound
    obtain ⟨mid, stepped, -⟩ := (supports.of_le (Nat.le_of_lt bound)).stepped
    refine ⟨?_, status, (supports.result_eq bound).trans success⟩
    rw [stepped]
    exact running
  · obtain ⟨after, stepped, -⟩ := supports.stepped
    rw [stepped]
    exact halts.halted

/-- A run is successful if its machine halts within the limit. -/
theorem run_eq_ok_iff {limit : Option Nat} {steps : Nat} {left : Machine} :
    machine.run limit = ⟨.ok steps, left⟩ ↔
      machine.HaltsAfter steps ∧ left = machine.stepped steps ∧ ∀ budget, limit = some budget → steps ≤ budget := by
  constructor
  · intro outcome
    have ends := runFor_eq_iff_ends.1 outcome
    cases ends with
    | halts within halts =>
        refine ⟨halts, rfl, ?_⟩
        rintro budget rfl
        exact within
  · rintro ⟨halts, rfl, within⟩
    cases limit with
    | none =>
        rw [run_none_eq (halts.not_exhausts (Nat.le_refl steps))]
        exact (Ends.halts (Nat.le_refl steps) halts).runFor_eq
    | some budget => exact (Ends.halts (within budget rfl) halts).runFor_eq

/-- A run that ends in a halt ends in the same way in a memory that has all that it reads. -/
theorem run_withMemory {limit : Option Nat} {steps : Nat} (success : (machine.run limit).result = .ok steps)
    (supports : machine.HaltsAfter steps → machine.Supports steps memory) :
    ∃ after, (machine.withMemory memory).run limit = ⟨.ok steps, (machine.run limit).machine.withMemory after⟩ := by
  have outcome : machine.run limit = ⟨.ok steps, (machine.run limit).machine⟩ := by
    rw [← success]
  obtain ⟨halts, left, within⟩ := run_eq_ok_iff.1 outcome
  obtain ⟨after, stepped, -⟩ := (supports halts).stepped
  exact ⟨after, run_eq_ok_iff.2 ⟨(supports halts).haltsAfter halts, by rw [left, stepped], within⟩⟩

end Runs

end WordMachine.Machine
