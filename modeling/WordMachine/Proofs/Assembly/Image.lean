import WordMachine.Assembly.Image
import WordMachine.Proofs.Assembly.Layout
import WordMachine.Proofs.Memory.Bytes

/-! # Memory images as bytes

Writing an instruction puts its bytes at its address: the head, and then the operand with its more significant
byte first.  The instructions of a layout follow each other, so what is written of a program is the bytes of its
instructions one behind the other.
-/

namespace WordMachine.Assembly

open Memory

/-- The number in the operand field of an instruction, if it has such a field. -/
def Framing.payload? (framing : Framing Empty) : Option Nat :=
  framing.argument.bind Argument.payload?

def operandBytes : Option Nat → List UInt8
  | some value => wordBytes value
  | none => []

def Framing.bytes (framing : Framing Empty) : List UInt8 :=
  framing.head.encode :: operandBytes framing.payload?

def Shape.bytes : Shape Empty → List UInt8
  | .data value => [UInt8.ofNat value]
  | shape => (shape.framing?.map Framing.bytes).getD []

/-- Whether an operation has an encoding: no store has an immediate operand, and operands are words. -/
structure Framing.Encodable (framing : Framing Empty) : Prop where
  storable : ¬ (framing.opcode = .store ∧ framing.mode = .immediate)
  narrow : ∀ value, framing.payload? = some value → value < UInt16.size

structure Instruction.Encodable (instruction : Instruction) : Prop where
  framed : ∀ framing, instruction.shape.framing? = some framing → framing.Encodable
  data : ∀ value, instruction.shape = .data value → value < 256

/-- Only the modes with an operand field have a number for it. -/
theorem Framing.payload?_isSome_iff (framing : Framing Empty) :
    framing.payload?.isSome ↔ framing.mode ≠ .accumulator := by
  obtain ⟨opcode, register, argument⟩ := framing
  cases argument with
  | none => simp [payload?, mode]
  | some argument =>
      cases argument with
      | label name => exact name.elim
      | _ => simp [payload?, mode, Argument.payload?, Argument.mode]

theorem Framing.mode_of_payload?_eq_none {framing : Framing Empty} (payload : framing.payload? = none) :
    framing.mode = .accumulator := by
  by_contra field
  have present := framing.payload?_isSome_iff.2 field
  rw [payload] at present
  cases present

theorem Framing.length_bytes (framing : Framing Empty) : framing.bytes.length = framing.head.size := by
  have operand := framing.payload?_isSome_iff
  cases payload : framing.payload? <;> cases mode : framing.mode <;>
    simp_all [bytes, operandBytes, wordBytes, head, Head.size, Mode.instructionBytes, Mode.operandBytes]

theorem Shape.bytes_of_framing {shape : Shape Empty} {framing : Framing Empty}
    (framed : shape.framing? = some framing) : shape.bytes = framing.bytes := by
  cases shape <;> simp_all [Shape.bytes, framing?]

theorem Shape.length_bytes (shape : Shape Empty) : shape.bytes.length = shape.size := by
  cases framed : shape.framing? with
  | none =>
      obtain ⟨value, rfl⟩ := framing?_eq_none_iff.1 framed
      rfl
  | some framing => rw [bytes_of_framing framed, framing.length_bytes, size_of_framing framed]

/-- The fields of a head, one behind the other, are its byte. -/
theorem ofNat_encode (head : Head) :
    Bits.ofNat 8 head.encode.toNat = Bits.ofNat Opcode.tagBits head.opcode.tag ++
      Bits.ofNat Register.tagBits head.register.tag ++ Bits.ofNat Mode.tagBits head.mode.tag := by
  obtain ⟨opcode, register, mode⟩ := head
  cases opcode <;> cases register <;> cases mode <;> rfl

theorem Written.andThen_of_none {written : Written} (success : written.fault = none) (next : Memory → Written) :
    written.andThen next = next written.memory := by
  simp only [Written.andThen, success]

theorem Written.andThen_of_some {written : Written} {fault : Fault} (failed : written.fault = some fault)
    (next : Memory → Written) : written.andThen next = written := by
  simp only [Written.andThen, failed]

theorem Written.andThen_fault_eq_none_iff {written : Written} {next : Memory → Written} :
    (written.andThen next).fault = none ↔ written.fault = none ∧ (next written.memory).fault = none := by
  cases stopped : written.fault with
  | none => simp only [andThen_of_none stopped, true_and]
  | some fault => simp [andThen_of_some stopped, stopped]

/-- A field that fits is written, and then the fields behind it. -/
theorem writeFields_cons {memory : Memory} {start length value : Nat} {rest : List BitField}
    (narrow : value < 1 <<< length) (inside : start + length ≤ memory.bitSize) :
    writeFields memory (⟨start, length, value⟩ :: rest) =
      writeFields (memory.writeBits start (Bits.ofNat length value)) rest := by
  rw [writeFields, setNumber_eq_ok narrow inside]
  rfl

theorem writeFields_headFields {memory : Memory} {address : Nat} (head : Head) (inside : address < memory.size) :
    writeFields memory (headFields (8 * address) head) = ⟨memory.putByte address head.encode, none⟩ := by
  have room : 8 * address + Opcode.tagBits + Register.tagBits + Mode.tagBits ≤ memory.bitSize := by
    simp only [bitSize, Opcode.tagBits, Register.tagBits, Mode.tagBits]
    omega
  have sizes : ∀ (memory : Memory) start bits, (memory.writeBits start bits).bitSize = memory.bitSize := by
    intro memory start bits
    rw [bitSize, size_writeBits, bitSize]
  rw [headFields, writeFields_cons head.opcode.tag_lt (by omega),
    writeFields_cons head.register.tag_lt (by rw [sizes]; omega),
    writeFields_cons head.mode.tag_lt (by rw [sizes, sizes]; omega), writeFields,
    ← writeBits_byte memory address head.encode inside, ofNat_encode, writeBits_append, writeBits_append,
    List.length_append, Bits.length_ofNat, Bits.length_ofNat, Nat.add_assoc]

/-- A head outside memory is refused at its first field. -/
theorem writeFields_headFields_outside {memory : Memory} {address : Nat} (head : Head)
    (outside : memory.size ≤ address) :
    writeFields memory (headFields (8 * address) head) =
      ⟨memory, some (.memory (.outOfBounds (8 * address) Opcode.tagBits memory.bitSize))⟩ := by
  have beyond : memory.bitSize < 8 * address + Opcode.tagBits := by
    rw [bitSize, Opcode.tagBits]
    omega
  rw [headFields, writeFields, setNumber_eq_error head.opcode.tag_lt beyond]
  rfl

theorem startBit?_eq {address : Nat} (addressable : 8 * address < bitAddressBound) :
    startBit? address = some (8 * address) :=
  if_pos addressable

theorem writeOperand_of_fault_eq_none {memory : Memory} {address value : Nat}
    (success : (writeOperand memory address value).fault = none) :
    value < UInt16.size ∧ address + 3 ≤ memory.size ∧
      writeOperand memory address value = ⟨memory.putBytes (address + 1) (wordBytes value), none⟩ := by
  unfold writeOperand at success ⊢
  by_cases narrow : value < UInt16.size
  · have word : (UInt16.ofNat value).toNat = value := UInt16.toNat_ofNat_of_lt' narrow
    rw [if_pos narrow] at success ⊢
    have addressable : 8 * (address + 1) < bitAddressBound := by
      by_contra outside
      simp [writeWord, bitAddress, outside, bind, Except.bind, Written.ofAccess] at success
    rcases Nat.lt_or_ge memory.size (address + 1 + 2) with outside | inside
    · rw [writeWord_eq_error addressable outside] at success
      cases success
    · rw [writeWord_eq_ok addressable inside, word]
      exact ⟨narrow, inside, rfl⟩
  · rw [if_neg narrow] at success
    cases success

section Heads

variable {memory : Memory} {address : Nat} {framing : Framing Empty}
  (storable : ¬ (framing.opcode = .store ∧ framing.mode = .immediate)) (addressable : 8 * address < bitAddressBound)

include storable addressable

/-- The head is written, and the operand is looked at after that. -/
theorem writeFramed_inside (inside : address < memory.size) :
    writeFramed memory address framing =
      match framing.payload? with
      | some value => writeOperand (memory.putByte address framing.head.encode) address value
      | none => ⟨memory.putByte address framing.head.encode, none⟩ := by
  rw [writeFramed, if_neg storable, startBit?_eq addressable]
  simp only [writeFields_headFields _ inside]
  rfl

theorem writeFramed_outside (outside : memory.size ≤ address) :
    writeFramed memory address framing =
      ⟨memory, some (.memory (.outOfBounds (8 * address) Opcode.tagBits memory.bitSize))⟩ := by
  rw [writeFramed, if_neg storable, startBit?_eq addressable]
  simp only [writeFields_headFields_outside _ outside]
  rfl

end Heads

/-- An operation that is written has an encoding, lies in memory, and its bytes are put there. -/
theorem writeFramed_of_fault_eq_none {memory : Memory} {address : Nat} {framing : Framing Empty}
    (addressable : 8 * address < bitAddressBound) (success : (writeFramed memory address framing).fault = none) :
    framing.Encodable ∧ address + framing.head.size ≤ memory.size ∧
      writeFramed memory address framing = ⟨memory.putBytes address framing.bytes, none⟩ := by
  have lengths := framing.length_bytes
  by_cases immediate : framing.opcode = .store ∧ framing.mode = .immediate
  · rw [writeFramed, if_pos immediate] at success
    cases success
  rcases Nat.lt_or_ge address memory.size with inside | outside
  · rw [writeFramed_inside immediate addressable inside] at success ⊢
    cases payload : framing.payload? with
    | none =>
        simp only [Framing.bytes, payload, operandBytes, List.length_singleton] at lengths ⊢
        exact ⟨⟨immediate, by simp [payload]⟩, by omega, rfl⟩
    | some value =>
        simp only [payload] at success ⊢
        simp only [Framing.bytes, payload, operandBytes, List.length_cons, length_wordBytes] at lengths
        obtain ⟨narrow, room, written⟩ := writeOperand_of_fault_eq_none success
        rw [size_putByte] at room
        refine ⟨⟨immediate, ?_⟩, by omega, ?_⟩
        · intro other found
          cases payload.symm.trans found
          exact narrow
        · rw [written, Framing.bytes, payload]
          rfl
  · rw [writeFramed_outside immediate addressable outside] at success
    cases success

theorem Instruction.write_of_data {instruction : Instruction} {value : Nat} (data : instruction.shape = .data value)
    (memory : Memory) : instruction.write memory = writeData memory instruction.address value := by
  rw [write, data]

theorem Instruction.write_of_framing {instruction : Instruction} {framing : Framing Empty}
    (framed : instruction.shape.framing? = some framing) (memory : Memory) :
    instruction.write memory = writeFramed memory instruction.address framing := by
  obtain ⟨labels, shape, address⟩ := instruction
  cases shape with
  | data value => cases framed
  | _ => simp only [write, framed]

/-- An instruction that is written has an encoding, lies in memory, and its bytes are put there. -/
theorem Instruction.write_of_fault_eq_none {instruction : Instruction} {memory : Memory}
    (addressable : 8 * instruction.address < bitAddressBound) (success : (instruction.write memory).fault = none) :
    instruction.Encodable ∧ instruction.next ≤ memory.size ∧
      instruction.write memory = ⟨memory.putBytes instruction.address instruction.shape.bytes, none⟩ := by
  obtain ⟨labels, shape, address⟩ := instruction
  simp only [next, size] at addressable ⊢
  cases framed : shape.framing? with
  | none =>
      obtain ⟨value, rfl⟩ := Shape.framing?_eq_none_iff.1 framed
      simp only [write, writeData] at success ⊢
      by_cases narrow : value < 256
      · rw [if_pos narrow] at success ⊢
        rcases Nat.lt_or_ge address memory.size with inside | outside
        · rw [writeByte_eq_ok addressable inside]
          refine ⟨⟨by simp [framed], ?_⟩, inside, rfl⟩
          rintro other ⟨⟩
          exact narrow
        · rw [writeByte_eq_error addressable outside] at success
          cases success
      · rw [if_neg narrow] at success
        cases success
  | some framing =>
      rw [write_of_framing framed] at success ⊢
      rw [Shape.size_of_framing framed]
      obtain ⟨encodable, inside, written⟩ := writeFramed_of_fault_eq_none addressable success
      refine ⟨⟨?_, ?_⟩, inside, by rw [written, Shape.bytes_of_framing framed]⟩
      · intro other found
        cases framed.symm.trans found
        exact encodable
      · rintro value rfl
        cases framed

/-- The bytes of some instructions, one behind the other. -/
def programBytes (instructions : List Instruction) : List UInt8 :=
  instructions.flatMap (·.shape.bytes)

theorem Tiles.length_programBytes {start finish : Nat} {instructions : List Instruction}
    (tiles : Tiles start finish instructions) : start + (programBytes instructions).length = finish := by
  induction instructions generalizing start with
  | nil => exact tiles
  | cons first rest ih =>
      have others := ih tiles.2
      have atStart := tiles.1
      simp only [programBytes, List.flatMap_cons, List.length_append, Shape.length_bytes] at others ⊢
      simp only [Instruction.next, Instruction.size] at others
      omega

/-- The bytes of an instruction stand among those of the program at its place. -/
theorem Tiles.getElem?_programBytes {start finish : Nat} {instructions : List Instruction}
    (tiles : Tiles start finish instructions) {instruction : Instruction} (member : instruction ∈ instructions)
    {offset : Nat} (inside : offset < instruction.size) :
    (programBytes instructions)[instruction.address - start + offset]? = instruction.shape.bytes[offset]? := by
  induction instructions generalizing start with
  | nil => simp at member
  | cons first rest ih =>
      obtain ⟨atStart, others⟩ := tiles
      rw [programBytes, List.flatMap_cons]
      rcases List.mem_cons.1 member with rfl | member
      · rw [atStart, Nat.sub_self, Nat.zero_add, List.getElem?_append_left]
        rw [Shape.length_bytes]
        exact inside
      · have behind := (others.bounds member).1
        have place := ih others member
        simp only [Instruction.next, Instruction.size] at behind place
        rw [List.getElem?_append_right (by rw [Shape.length_bytes]; omega), Shape.length_bytes,
          show instruction.address - start + offset - first.shape.size =
            instruction.address - (first.address + first.shape.size) + offset by omega]
        exact place

/-- Up to the end of a small memory all bits have addresses. -/
theorem addressable_of_small {size : Nat} (small : size < 2 ^ 61) (finish : Nat) :
    8 * min finish (size + 1) ≤ bitAddressBound := by
  rw [bitAddressBound, UInt64.size]
  omega

/-- Instructions that tile a range and are written all put the bytes of the program there.  Either the range or
    the memory is small enough for bit addresses, so that none of them wraps around. -/
theorem writeAll_of_fault_eq_none {start finish : Nat} {instructions : List Instruction} {memory : Memory}
    (tiles : Tiles start finish instructions) (inside : start ≤ memory.size)
    (addressable : 8 * min finish (memory.size + 1) ≤ bitAddressBound)
    (success : (writeAll instructions memory).fault = none) :
    (∀ instruction ∈ instructions, instruction.Encodable) ∧ finish ≤ memory.size ∧
      writeAll instructions memory = ⟨memory.putBytes start (programBytes instructions), none⟩ := by
  induction instructions generalizing start memory with
  | nil => exact ⟨by simp, (show start = finish from tiles) ▸ inside, rfl⟩
  | cons first rest ih =>
      obtain ⟨atStart, others⟩ := tiles
      have behind := others.le
      have positive := first.shape.size_pos
      simp only [Instruction.next, Instruction.size] at behind
      obtain ⟨goesOn, success⟩ := Written.andThen_fault_eq_none_iff.1 success
      obtain ⟨encodable, inside, written⟩ := first.write_of_fault_eq_none (by omega) goesOn
      rw [writeAll, Written.andThen_of_none goesOn]
      rw [written] at success ⊢
      obtain ⟨restEncodable, restInside, restWritten⟩ :=
        ih others (by rwa [size_putBytes]) (by rwa [size_putBytes]) success
      rw [size_putBytes] at restInside
      refine ⟨List.forall_mem_cons.2 ⟨encodable, restEncodable⟩, restInside, ?_⟩
      rw [restWritten, programBytes, programBytes, List.flatMap_cons, putBytes_append, Shape.length_bytes, ← atStart]
      rfl

/-- A memory whose first bytes are given and that is blank behind them. -/
theorem bytes_putBytes_zeroed {count : Nat} {bytes : List UInt8} (fits : bytes.length ≤ count) :
    ((zeroed count).putBytes 0 bytes).bytes.toList = bytes ++ List.replicate (count - bytes.length) 0 := by
  apply List.ext_getElem?
  intro address
  rw [Array.getElem?_toList, bytes_putBytes _ _ _ _ (by rwa [size_zeroed, Nat.zero_add]), if_pos (Nat.zero_le _),
    Nat.sub_zero, zeroed, Array.getElem?_replicate]
  rcases Nat.lt_or_ge address bytes.length with inside | behind
  · rw [List.getElem?_append_left inside, List.getElem?_eq_getElem inside, Option.some_or]
  · rw [List.getElem?_append_right behind, List.getElem?_eq_none behind, Option.none_or, List.getElem?_replicate]
    exact if_congr (by omega) rfl rfl

/-- The image of a program: its bytes, and zeros behind them. -/
theorem bytes_writeAll_zeroed {instructions : List Instruction} {count : Nat}
    (tiles : Tiles 0 (programSize instructions) instructions)
    (addressable : 8 * min (programSize instructions) (count + 1) ≤ bitAddressBound)
    (success : (writeAll instructions (.zeroed count)).fault = none) (address : Nat) :
    (writeAll instructions (.zeroed count)).memory.bytes[address]? =
      (programBytes instructions)[address]?.or (if address < count then some 0 else none) := by
  obtain ⟨-, inside, written⟩ := writeAll_of_fault_eq_none tiles (Nat.zero_le _) (by rwa [size_zeroed]) success
  have length := tiles.length_programBytes
  have room : 0 + (programBytes instructions).length ≤ (zeroed count).size := by
    omega
  rw [written]
  simp only [bytes_putBytes _ _ _ _ room, Nat.zero_le, if_true, Nat.sub_zero]
  simp [zeroed, Array.getElem?_replicate]

theorem holds_writeAll_zeroed {instructions : List Instruction} {count : Nat}
    (tiles : Tiles 0 (programSize instructions) instructions)
    (addressable : 8 * min (programSize instructions) (count + 1) ≤ bitAddressBound)
    (success : (writeAll instructions (.zeroed count)).fault = none) {instruction : Instruction}
    (member : instruction ∈ instructions) :
    (writeAll instructions (.zeroed count)).memory.Holds instruction.address instruction.shape.bytes := by
  intro offset inside
  have place := tiles.getElem?_programBytes member (Shape.length_bytes _ ▸ inside)
  rw [Nat.sub_zero] at place
  rw [bytes_writeAll_zeroed tiles addressable success, place, List.getElem?_eq_getElem inside]
  rfl

theorem readByte_of_holds {memory : Memory} {address : Nat} {framing : Framing Empty}
    (holds : memory.Holds address framing.bytes) (addressable : 8 * address < bitAddressBound) :
    memory.readByte address = .ok framing.head.encode :=
  readByte_eq_ok addressable (holds 0 (by simp [Framing.bytes]))

theorem operand_of_holds {memory : Memory} {address value : Nat} {framing : Framing Empty}
    (holds : memory.Holds address framing.bytes) (payload : framing.payload? = some value) :
    memory.bytes[address + 1]? = some (UInt8.ofNat (value / 256)) ∧
      memory.bytes[address + 1 + 1]? = some (UInt8.ofNat value) := by
  have bytes : framing.bytes = framing.head.encode :: wordBytes value := by
    rw [Framing.bytes, payload]
    rfl
  rw [bytes] at holds
  exact ⟨holds 1 (by simp [wordBytes]), holds 2 (by simp [wordBytes])⟩

theorem toNat_wordBytes {value : Nat} (narrow : value < UInt16.size) :
    256 * (UInt8.ofNat (value / 256)).toNat + (UInt8.ofNat value).toNat = value := by
  rw [UInt16.size] at narrow
  rw [UInt8.toNat_ofNat', UInt8.toNat_ofNat']
  omega

theorem readWord_of_holds {memory : Memory} {address value : Nat} {framing : Framing Empty}
    (holds : memory.Holds address framing.bytes) (addressable : 8 * (address + 1) < bitAddressBound)
    (payload : framing.payload? = some value) (narrow : value < UInt16.size) :
    memory.readWord (address + 1) = .ok (UInt16.ofNat value) := by
  obtain ⟨high, low⟩ := operand_of_holds holds payload
  rw [readWord_eq_ok addressable high low, toNat_wordBytes narrow]

end WordMachine.Assembly
