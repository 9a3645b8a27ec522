import WordMachine.Proofs.Machine.Refinement

/-! # Why steps fail

What can keep a machine from executing an instruction, in the order in which it comes up: there is no byte at the
counter, a field of the byte is reserved, the operand field is cut off, a direct operand names no word, or the
instruction is refused.  A step that fails changes nothing but the counter, and the counter only in the last case.
-/

namespace WordMachine

namespace Reference

/-- The first field of a byte that names nothing: the operation in the upper four bits, then the register, then the
    mode in the lowest two. -/
inductive FirstReserved (byte : UInt8) : Head.Reserved → Prop where
  | opcode (reserved : 15 ≤ byte.toNat / 16) : FirstReserved byte (.opcode (byte.toNat / 16))
  | register (named : byte.toNat / 16 < 15) (reserved : 3 ≤ byte.toNat / 4 % 4) :
      FirstReserved byte (.register (byte.toNat / 4 % 4))
  | mode (named : byte.toNat / 16 < 15) (also : byte.toNat / 4 % 4 < 3) (reserved : 3 ≤ byte.toNat % 4) :
      FirstReserved byte (.mode (byte.toNat % 4))

/-- The byte at an address is the head of an instruction. -/
def HeadAt (bytes : List UInt8) (address : Nat) (head : Head) : Prop :=
  ∃ byte, bytes[address]? = some byte ∧ Head.decode byte = .ok head

inductive Obstacle where
  /-- No byte stands at the counter. -/
  | noByte
  | reserved (field : Head.Reserved)
  /-- The operand field does not lie in memory. -/
  | noField
  /-- No word stands at the address that a direct operand names. -/
  | noWord (address : Nat)
  /-- The operand is known, but the instruction is not executed. -/
  | refused (head : Head) (refusal : Refusal)
  deriving Repr, DecidableEq

/-- What keeps the instruction at an address from being executed. -/
inductive Obstructs (data : Data) (pc : Nat) : Obstacle → Prop where
  | noByte (outside : data.bytes.length ≤ pc) : Obstructs data pc .noByte
  | reserved {byte : UInt8} {field : Head.Reserved} (present : data.bytes[pc]? = some byte)
      (first : FirstReserved byte field) : Obstructs data pc (.reserved field)
  | noField {head : Head} (here : HeadAt data.bytes pc head) (long : head.mode ≠ .accumulator)
      (cut : data.bytes.length < pc + 3) : Obstructs data pc .noField
  | noWord {head : Head} {address : Nat} (here : HeadAt data.bytes pc head) (direct : head.mode = .direct)
      (taken : takesPlace head.opcode = false) (named : wordAt? data.bytes (pc + 1) = some address)
      (outside : data.bytes.length < address + 2) : Obstructs data pc (.noWord address)
  | refused {head : Head} {operand : Nat} {refusal : Refusal} (here : HeadAt data.bytes pc head)
      (resolved : operand? data pc head = some operand) (refused : refusal? head operand data = some refusal) :
      Obstructs data pc (.refused head refusal)

/-- How far the counter moves in spite of an obstacle. -/
def Obstacle.advance : Obstacle → Nat
  | .noByte | .reserved _ | .noField | .noWord _ => 0
  | .refused head _ => length head.mode

theorem length_pos (mode : Mode) : 0 < length mode := by
  cases mode <;> decide

theorem Obstacle.advance_eq_zero_iff (obstacle : Obstacle) :
    obstacle.advance = 0 ↔ ∀ head refusal, obstacle ≠ .refused head refusal := by
  cases obstacle with
  | refused head refusal => simp [advance, Nat.ne_of_gt (length_pos head.mode)]
  | _ => simp [advance]

theorem decode_eq (byte : UInt8) : Head.decode byte = do
    let opcode ← Head.field (Opcode.all[byte.toNat / 16]?) (.opcode (byte.toNat / 16))
    let register ← Head.field (Register.all[byte.toNat / 4 % 4]?) (.register (byte.toNat / 4 % 4))
    let mode ← Head.field (Mode.all[byte.toNat % 4]?) (.mode (byte.toNat % 4))
    return ⟨opcode, register, mode⟩ := by
  have opcode : byte.toNat >>> (Register.tagBits + Mode.tagBits) = byte.toNat / 16 := Nat.shiftRight_eq_div_pow _ 4
  have register : byte.toNat >>> Mode.tagBits = byte.toNat / 4 := Nat.shiftRight_eq_div_pow _ 2
  rw [Head.decode, opcode, register]
  rfl

theorem decode_eq_error_iff {byte : UInt8} {field : Head.Reserved} :
    Head.decode byte = .error field ↔ FirstReserved byte field := by
  rw [decode_eq]
  constructor
  · intro failed
    rcases Nat.lt_or_ge (byte.toNat / 16) 15 with opcode | reserved
    · rcases Nat.lt_or_ge (byte.toNat / 4 % 4) 3 with register | reserved
      · rcases Nat.lt_or_ge (byte.toNat % 4) 3 with mode | reserved
        · rw [List.getElem?_eq_getElem opcode, List.getElem?_eq_getElem register,
            List.getElem?_eq_getElem mode] at failed
          cases failed
        · rw [List.getElem?_eq_getElem opcode, List.getElem?_eq_getElem register,
            List.getElem?_eq_none reserved] at failed
          cases failed
          exact .mode opcode register reserved
      · rw [List.getElem?_eq_getElem opcode, List.getElem?_eq_none reserved] at failed
        cases failed
        exact .register opcode reserved
    · rw [List.getElem?_eq_none reserved] at failed
      cases failed
      exact .opcode reserved
  · intro first
    cases first with
    | opcode reserved =>
        rw [List.getElem?_eq_none reserved]
        rfl
    | register named reserved =>
        rw [List.getElem?_eq_getElem named, List.getElem?_eq_none reserved]
        rfl
    | mode named also reserved =>
        rw [List.getElem?_eq_getElem named, List.getElem?_eq_getElem also, List.getElem?_eq_none reserved]
        rfl

theorem HeadAt.lt {bytes : List UInt8} {address : Nat} {head : Head} (here : HeadAt bytes address head) :
    address < bytes.length := by
  obtain ⟨byte, present, -⟩ := here
  exact (List.getElem?_eq_some_iff.1 present).1

theorem HeadAt.unique {bytes : List UInt8} {address : Nat} {head other : Head} (here : HeadAt bytes address head)
    (also : HeadAt bytes address other) : other = head := by
  obtain ⟨byte, present, decoded⟩ := here
  obtain ⟨again, presentAgain, decodedAgain⟩ := also
  cases present.symm.trans presentAgain
  exact Except.ok.inj (decodedAgain.symm.trans decoded)

theorem wordAt?_eq_none_iff {bytes : List UInt8} {address : Nat} :
    wordAt? bytes address = none ↔ bytes.length < address + 2 := by
  rw [wordAt?]
  rcases Nat.lt_or_ge bytes.length (address + 2) with outside | inside
  · simp only [outside, iff_true]
    rw [List.getElem?_eq_none (i := address + 1) (by omega)]
    cases bytes[address]? <;> rfl
  · rw [List.getElem?_eq_getElem (by omega), List.getElem?_eq_getElem (by omega)]
    simp [Nat.not_lt.2 inside]

theorem operand?_eq_none_of_cut {data : Data} {pc : Nat} {head : Head} (long : head.mode ≠ .accumulator)
    (cut : data.bytes.length < pc + 3) : operand? data pc head = none := by
  have absent : wordAt? data.bytes (pc + 1) = none := wordAt?_eq_none_iff.2 cut
  rw [operand?, absent, operandFrom?]
  cases mode : head.mode with
  | accumulator => exact absurd mode long
  | immediate => rfl
  | direct => rfl

theorem operand?_eq_none_of_noWord {data : Data} {pc address : Nat} {head : Head} (direct : head.mode = .direct)
    (taken : takesPlace head.opcode = false) (named : wordAt? data.bytes (pc + 1) = some address)
    (outside : data.bytes.length < address + 2) : operand? data pc head = none := by
  simp [operand?, operandFrom?, direct, named, directOperand?, taken, wordAt?_eq_none_iff.2 outside]

/-- Where a head has no operand, its field is cut off or names no word. -/
theorem obstructs_of_operand?_eq_none {data : Data} {pc : Nat} {head : Head} (here : HeadAt data.bytes pc head)
    (absent : operand? data pc head = none) : ∃ obstacle, Obstructs data pc obstacle := by
  have long : head.mode ≠ .accumulator := by
    intro short
    rw [operand?, operandFrom?, short] at absent
    cases absent
  cases named : wordAt? data.bytes (pc + 1) with
  | none => exact ⟨_, .noField here long (wordAt?_eq_none_iff.1 named)⟩
  | some address =>
      rw [operand?, operandFrom?, named] at absent
      cases direct : head.mode with
      | accumulator => exact absurd direct long
      | immediate =>
          rw [direct] at absent
          cases absent
      | direct =>
          rw [direct] at absent
          simp only [Option.bind_some, directOperand?] at absent
          cases taken : takesPlace head.opcode with
          | true => simp [taken] at absent
          | false =>
              rw [taken, if_neg (by simp)] at absent
              exact ⟨_, .noWord here direct taken named (wordAt?_eq_none_iff.1 absent)⟩

/-- What can keep an instruction from being executed once its head is known. -/
theorem Obstructs.of_headAt {data : Data} {pc : Nat} {head : Head} {obstacle : Obstacle}
    (here : HeadAt data.bytes pc head) (obstructs : Obstructs data pc obstacle) :
    (obstacle = .noField ∧ head.mode ≠ .accumulator ∧ data.bytes.length < pc + 3) ∨
      (∃ address, obstacle = .noWord address ∧ operand? data pc head = none ∧
        wordAt? data.bytes (pc + 1) = some address) ∨
      ∃ operand refusal, obstacle = .refused head refusal ∧ operand? data pc head = some operand ∧
        refusal? head operand data = some refusal := by
  cases obstructs with
  | noByte outside => exact absurd here.lt (Nat.not_lt.2 outside)
  | reserved present first =>
      obtain ⟨byte, found, decoded⟩ := here
      cases present.symm.trans found
      rw [decode_eq_error_iff.2 first] at decoded
      cases decoded
  | noField also long cut =>
      cases here.unique also
      exact .inl ⟨rfl, long, cut⟩
  | noWord also direct taken named outside =>
      cases here.unique also
      exact .inr (.inl ⟨_, rfl, operand?_eq_none_of_noWord direct taken named outside, named⟩)
  | refused also resolved refused =>
      cases here.unique also
      exact .inr (.inr ⟨_, _, rfl, resolved, refused⟩)

theorem Obstructs.unique_of_headAt {data : Data} {pc : Nat} {head : Head} {obstacle other : Obstacle}
    (here : HeadAt data.bytes pc head) (obstructs : Obstructs data pc obstacle) (also : Obstructs data pc other) :
    other = obstacle := by
  -- Whether the field is there and whether there is an operand tells the three kinds apart.
  obtain ⟨rfl, long, cut⟩ | ⟨address, rfl, absent, named⟩ | ⟨operand, refusal, rfl, resolved, refused⟩ :=
    obstructs.of_headAt here
  · have noField : wordAt? data.bytes (pc + 1) = none := wordAt?_eq_none_iff.2 cut
    have noOperand := operand?_eq_none_of_cut long cut
    obtain ⟨rfl, -, -⟩ | ⟨_, rfl, -, named⟩ | ⟨_, _, rfl, resolved, -⟩ := also.of_headAt here
    · rfl
    · cases noField.symm.trans named
    · cases noOperand.symm.trans resolved
  · obtain ⟨rfl, long, cut⟩ | ⟨_, rfl, -, namedAgain⟩ | ⟨_, _, rfl, resolved, -⟩ := also.of_headAt here
    · cases (wordAt?_eq_none_iff.2 cut).symm.trans named
    · cases named.symm.trans namedAgain
      rfl
    · cases absent.symm.trans resolved
  · obtain ⟨rfl, long, cut⟩ | ⟨_, rfl, absent, -⟩ | ⟨_, _, rfl, again, refusedAgain⟩ := also.of_headAt here
    · cases (operand?_eq_none_of_cut long cut).symm.trans resolved
    · cases absent.symm.trans resolved
    · cases resolved.symm.trans again
      cases refused.symm.trans refusedAgain
      rfl

/-- An instruction has one obstacle at most. -/
theorem Obstructs.unique {data : Data} {pc : Nat} {obstacle other : Obstacle} (obstructs : Obstructs data pc obstacle)
    (also : Obstructs data pc other) : other = obstacle := by
  cases obstructs with
  | noByte outside =>
      have absent := List.getElem?_eq_none outside
      cases also with
      | noByte _ => rfl
      | reserved present _ => cases absent.symm.trans present
      | noField here _ _ | noWord here _ _ _ _ | refused here _ _ => exact absurd here.lt (Nat.not_lt.2 outside)
  | @reserved byte _ present first =>
      have noHead : ∀ head, ¬ HeadAt data.bytes pc head := by
        rintro head ⟨again, found, decoded⟩
        cases present.symm.trans found
        rw [decode_eq_error_iff.2 first] at decoded
        cases decoded
      cases also with
      | noByte outside => cases (List.getElem?_eq_none outside).symm.trans present
      | reserved found again =>
          cases present.symm.trans found
          have same := (decode_eq_error_iff.2 first).symm.trans (decode_eq_error_iff.2 again)
          cases same
          rfl
      | noField here _ _ | noWord here _ _ _ _ | refused here _ _ => exact absurd here (noHead _)
  | noField here long cut => exact unique_of_headAt here (.noField here long cut) also
  | noWord here direct taken named outside => exact unique_of_headAt here (.noWord here direct taken named outside) also
  | refused here resolved refused => exact unique_of_headAt here (.refused here resolved refused) also

end Reference

namespace Machine

open Reference

/-- The fault that a machine reports for an obstacle. -/
def Fault.ofObstacle (pc : UInt64) (size : Nat) : Obstacle → Fault
  | .noByte => .memory (.outOfBounds (Memory.reportedStart pc.toNat) 8 (8 * size))
  | .reserved field => .reserved pc field
  | .noField => .memory (.outOfBounds (8 * (pc.toNat + 1)) 16 (8 * size))
  | .noWord address => .memory (.outOfBounds (8 * address) 16 (8 * size))
  | .refused _ refusal => .ofRefusal pc size refusal

section Steps

variable {machine : Machine} {obstacle : Obstacle}

theorem step_of_fetch_error {fault : Fault} (running : machine.halted = false) (failed : machine.fetch = .error fault) :
    machine.step = ⟨.error fault, machine⟩ := by
  simp [step, running, failed]

theorem fetch_of_headAt {head : Head} (small : machine.memory.size < 2 ^ 61)
    (here : HeadAt machine.data.bytes machine.pc.toNat head) : machine.fetch = .ok head := by
  obtain ⟨byte, present, decoded⟩ := here
  exact fetch_of_decode small present decoded

/-- A field that is cut off is looked for before anything else about the operand. -/
theorem operand_of_cut {head : Head} (small : machine.memory.size < 2 ^ 61)
    (inside : machine.pc.toNat < machine.memory.size) (long : head.mode ≠ .accumulator)
    (cut : machine.memory.size < machine.pc.toNat + 3) :
    machine.operand head =
      .error (.memory (.outOfBounds (8 * (machine.pc.toNat + 1)) 16 (8 * machine.memory.size))) := by
  have behind : (machine.pc + 1).toNat = machine.pc.toNat + 1 := by
    rw [UInt64.toNat_add, UInt64.toNat_one]
    omega
  have field : machine.operandField = .error (.memory
      (.outOfBounds (8 * (machine.pc.toNat + 1)) 16 (8 * machine.memory.size))) := by
    rw [operandField, behind, Memory.readWord_eq_error (Memory.addressable_of_lt (by omega)) (by omega)]
    rfl
  cases mode : head.mode with
  | accumulator => exact absurd mode long
  | immediate | direct =>
      rw [operand, mode, field]
      rfl

/-- An obstacle makes a step fail, and the machine stays as it is but for the counter. -/
theorem step_of_obstructs (running : machine.halted = false) (small : machine.memory.size < 2 ^ 61)
    (obstructs : Obstructs machine.data machine.pc.toNat obstacle) :
    machine.step = ⟨.error (.ofObstacle machine.pc machine.memory.size obstacle),
      machine.jumpTo (machine.pc + UInt64.ofNat obstacle.advance)⟩ := by
  have stays : machine.jumpTo (machine.pc + UInt64.ofNat 0) = machine := by
    rw [jumpTo, show UInt64.ofNat 0 = 0 from rfl, UInt64.add_zero]
  cases obstructs with
  | noByte outside =>
      have fetched : machine.fetch = .error (.ofObstacle machine.pc machine.memory.size .noByte) := by
        rw [fetch, Memory.readByte_outside outside]
        rfl
      rw [step_of_fetch_error running fetched, Obstacle.advance, stays]
  | @reserved byte field present first =>
      have fetched : machine.fetch = .error (.ofObstacle machine.pc machine.memory.size (.reserved field)) := by
        rw [fetch_of_present small present, decode_eq_error_iff.2 first]
        rfl
      rw [step_of_fetch_error running fetched, Obstacle.advance, stays]
  | noField here long cut =>
      have inside : machine.pc.toNat < machine.memory.size := here.lt
      rw [step_of_operand_error running (fetch_of_headAt small here) (operand_of_cut small inside long cut),
        Obstacle.advance, stays]
      rfl
  | noWord here direct taken named outside =>
      have inside : machine.pc.toNat < machine.memory.size := here.lt
      have absent := operand?_eq_none_of_noWord direct taken named outside
      rw [operand?, named] at absent
      rw [step_of_operand_error running (fetch_of_headAt small here)
        (operand_of_operandFrom?_eq_none small inside named absent), Obstacle.advance, stays]
      rfl
  | @refused head operand refusal here resolved refused =>
      have inside : machine.pc.toNat < machine.memory.size := here.lt
      obtain ⟨word, found, means⟩ := operand_of_operand? small inside resolved
      rw [step_of_refused running (fetch_of_headAt small here) found means refused, Obstacle.advance, length_eq_size]
      rfl

/-- Without an obstacle a step succeeds. -/
theorem step_of_not_obstructs (running : machine.halted = false) (small : machine.memory.size < 2 ^ 61)
    (free : ∀ obstacle, ¬ Obstructs machine.data machine.pc.toNat obstacle) :
    ∃ status, machine.step.result = .ok status := by
  have inside : machine.pc.toNat < machine.memory.size :=
    Nat.lt_of_not_le fun outside => free _ (.noByte outside)
  have present := List.getElem?_eq_getElem (l := machine.data.bytes) inside
  generalize machine.data.bytes[machine.pc.toNat] = byte at present
  cases decoded : Head.decode byte with
  | error field => exact absurd (.reserved present (decode_eq_error_iff.1 decoded)) (free _)
  | ok head =>
      have here : HeadAt machine.data.bytes machine.pc.toNat head := ⟨byte, present, decoded⟩
      cases resolved : operand? machine.data machine.pc.toNat head with
      | none =>
          obtain ⟨obstacle, obstructs⟩ := obstructs_of_operand?_eq_none here resolved
          exact absurd obstructs (free obstacle)
      | some operand =>
          cases refused : refusal? head operand machine.data with
          | some refusal => exact absurd (.refused here resolved refused) (free _)
          | none =>
              obtain ⟨word, found, means⟩ := operand_of_operand? small inside resolved
              have fetched := fetch_of_decode small present decoded
              exact ⟨_, (step_of_accepted running (by omega) fetched found means refused).1⟩

theorem toNat_advance (obstructs : Obstructs machine.data machine.pc.toNat obstacle)
    (small : machine.memory.size < 2 ^ 61) :
    (machine.pc + UInt64.ofNat obstacle.advance).toNat = machine.pc.toNat + obstacle.advance := by
  cases obstructs with
  | refused here _ _ =>
      have inside : machine.pc.toNat < machine.memory.size := here.lt
      rw [Obstacle.advance, length_eq_size, toNat_behind (by omega), length_eq_size]
  | _ => simp [Obstacle.advance]

end Steps

/-- When and how a step fails.  It reports a fault exactly if there is the obstacle that the fault stands for, and a
    machine has one obstacle at most.  Registers, memory and the halted state are as before; the counter is where it
    was unless the instruction was refused with its operand known, and then it stands behind the instruction. -/
theorem failures_classified {machine : Machine} (running : machine.halted = false)
    (small : machine.memory.size < 2 ^ 61) :
    (∀ fault, machine.step.result = .error fault ↔ ∃ obstacle,
      Obstructs machine.data machine.pc.toNat obstacle ∧
        Fault.ofObstacle machine.pc machine.memory.size obstacle = fault) ∧
    ∀ obstacle, Obstructs machine.data machine.pc.toNat obstacle →
      (∀ other, Obstructs machine.data machine.pc.toNat other → other = obstacle) ∧
      machine.step.machine.registers = machine.registers ∧ machine.step.machine.memory = machine.memory ∧
      machine.step.machine.halted = machine.halted ∧
      (machine.step.machine.pc = machine.pc ↔ ∀ head refusal, obstacle ≠ .refused head refusal) ∧
      ∀ head, HeadAt machine.data.bytes machine.pc.toNat head →
        (machine.step.machine.pc.toNat = machine.pc.toNat + length head.mode ↔
          ∃ refusal, obstacle = .refused head refusal) := by
  constructor
  · intro fault
    constructor
    · intro failed
      by_cases blocked : ∃ obstacle, Obstructs machine.data machine.pc.toNat obstacle
      · obtain ⟨obstacle, obstructs⟩ := blocked
        rw [step_of_obstructs running small obstructs] at failed
        exact ⟨obstacle, obstructs, Except.error.inj failed⟩
      · obtain ⟨status, succeeded⟩ := step_of_not_obstructs running small (not_exists.1 blocked)
        cases failed.symm.trans succeeded
    · rintro ⟨obstacle, obstructs, rfl⟩
      rw [step_of_obstructs running small obstructs]
  · intro obstacle obstructs
    rw [step_of_obstructs running small obstructs]
    refine ⟨fun other => obstructs.unique, rfl, rfl, rfl, ?_, fun head here => ?_⟩
    · rw [← UInt64.toNat_inj, jumpTo, toNat_advance obstructs small, ← obstacle.advance_eq_zero_iff]
      omega
    · rw [jumpTo, toNat_advance obstructs small]
      have positive := length_pos head.mode
      obtain ⟨rfl, -⟩ | ⟨address, rfl, -⟩ | ⟨operand, refusal, rfl, -⟩ := obstructs.of_headAt here
      · simp [Obstacle.advance, Nat.ne_of_gt positive]
      · simp [Obstacle.advance, Nat.ne_of_gt positive]
      · simp [Obstacle.advance]

/-- A store of an immediate operand whose field is cut off after one of its bytes. -/
def cutStore : Machine := ⟨.ofBytes [Head.encode ⟨.store, .r1, .immediate⟩, 0], ⟨1, 2, 3⟩, 0, false⟩

theorem failures_classified_cut_store :
    cutStore.step.result = .error (.memory (.outOfBounds 8 16 16)) ∧ cutStore.step.machine.pc = 0 := by
  have here : HeadAt cutStore.data.bytes cutStore.pc.toNat ⟨.store, .r1, .immediate⟩ :=
    ⟨_, rfl, Head.decode_encode _⟩
  have cut : Obstructs cutStore.data cutStore.pc.toNat .noField := .noField here (by decide) (by decide)
  obtain ⟨faults, outcome⟩ := @failures_classified cutStore rfl (by decide)
  obtain ⟨-, -, -, -, stays, -⟩ := outcome _ cut
  exact ⟨(faults _).2 ⟨_, cut, rfl⟩, stays.2 (by simp)⟩

end Machine

end WordMachine
