import WordMachine.Proofs.Assembly.Image

/-! # Images decode back to their programs

What the machine reads at the addresses of a written program is the program: heads decode to the operations,
words to the operands, and a sweep that goes from head to head finds every instruction of a program without data.
-/

namespace WordMachine.Assembly

open Memory

/-- The head of an operation, with the accumulator for a register or an argument that is not named. -/
def Shape.head? : Shape Empty → Option Head
  | .nullary opcode => some ⟨opcode, .r0, .accumulator⟩
  | .unary opcode register argument =>
      some ⟨opcode, register.getD .r0, (argument.map Argument.mode).getD .accumulator⟩
  | .binary opcode register argument => some ⟨opcode, register, argument.mode⟩
  | .data _ => none

def Shape.payload? : Shape Empty → Option Nat
  | .unary _ _ argument => argument.bind Argument.payload?
  | .binary _ _ argument => argument.payload?
  | .nullary _ | .data _ => none

/-- An instruction as it is found in memory. -/
structure Decoded where
  head : Head
  payload : Option Nat
  deriving Repr, DecidableEq

def Instruction.decoded? (instruction : Instruction) : Option Decoded :=
  instruction.shape.head?.map (⟨·, instruction.shape.payload?⟩)

/-- The instruction that memory holds at an address. -/
def decodeAt? (memory : Memory) (address : Nat) : Option Decoded := do
  let byte ← (memory.readByte address).toOption
  let head ← (Head.decode byte).toOption
  match head.mode with
  | .accumulator => return ⟨head, none⟩
  | .immediate | .direct => return ⟨head, some (← (memory.readWord (address + 1)).toOption).toNat⟩

/-- The instructions that memory holds between two addresses, one behind the other. -/
def sweep? (memory : Memory) (finish address : Nat) : Option (List Decoded) :=
  if address < finish then do
    let found ← decodeAt? memory address
    return found :: (← sweep? memory finish (address + found.head.size))
  else some []
termination_by finish - address
decreasing_by
  simp only [Head.size, Mode.instructionBytes]
  omega

theorem Shape.head?_eq (shape : Shape Empty) : shape.head? = shape.framing?.map Framing.head := by
  cases shape with
  | unary opcode register argument => cases argument <;> rfl
  | _ => rfl

theorem Shape.payload?_eq {shape : Shape Empty} {framing : Framing Empty} (framed : shape.framing? = some framing) :
    shape.payload? = framing.payload? := by
  cases shape with
  | data value => cases framed
  | _ => cases framed; rfl

theorem decodeAt?_of_holds {memory : Memory} {address : Nat} {framing : Framing Empty}
    (holds : memory.Holds address framing.bytes) (encodable : framing.Encodable)
    (addressable : 8 * (address + framing.head.size) ≤ bitAddressBound) :
    decodeAt? memory address = some ⟨framing.head, framing.payload?⟩ := by
  have positive := framing.size_pos
  have operand := framing.payload?_isSome_iff
  have byte := readByte_of_holds holds (by omega)
  simp only [decodeAt?, byte, Head.decode_encode, Except.toOption, Option.bind_eq_bind, Option.bind_some]
  cases payload : framing.payload? with
  | none =>
      have mode : framing.head.mode = .accumulator := by simpa [payload, Framing.head] using operand
      rw [mode]
      rfl
  | some value =>
      have narrow := encodable.narrow value payload
      have mode : framing.head.mode ≠ .accumulator := operand.1 (by simp [payload])
      have long : framing.head.size = 3 := by
        cases found : framing.head.mode <;> simp_all [Head.size, Mode.instructionBytes, Mode.operandBytes]
      have word := readWord_of_holds holds (by omega) payload narrow
      rw [word]
      cases found : framing.head.mode with
      | accumulator => exact absurd found mode
      | _ => simp [Option.pure_def, UInt16.toNat_ofNat_of_lt' narrow]

/-- A sweep finds instructions that tile the range it goes through. -/
theorem sweep?_of_tiles {memory : Memory} {start finish : Nat} {instructions : List Instruction}
    (tiles : Tiles start finish instructions)
    (found : ∀ instruction ∈ instructions, ∃ decoded, instruction.decoded? = some decoded ∧
      decodeAt? memory instruction.address = some decoded ∧ decoded.head.size = instruction.size) :
    sweep? memory finish start = some (instructions.filterMap Instruction.decoded?) := by
  induction instructions generalizing start with
  | nil =>
      have done : start = finish := tiles
      rw [sweep?, if_neg (by omega)]
      rfl
  | cons first rest ih =>
      obtain ⟨atStart, others⟩ := tiles
      obtain ⟨decoded, listed, seen, size⟩ := found first List.mem_cons_self
      have behind := others.le
      have positive := first.shape.size_pos
      have next : start + decoded.head.size = first.next := by rw [size, Instruction.next, atStart]
      simp only [Instruction.next, Instruction.size] at behind
      rw [sweep?, if_pos (by omega), ← atStart, seen, Option.bind_eq_bind, Option.bind_some, atStart, next,
        ih others fun instruction member => found instruction (List.mem_cons_of_mem _ member),
        List.filterMap_cons_some listed]
      rfl

theorem Instruction.found_of_holds {memory : Memory} {instruction : Instruction}
    (holds : memory.Holds instruction.address instruction.shape.bytes) (encodable : instruction.Encodable)
    (addressable : 8 * instruction.next ≤ bitAddressBound) (operation : ∀ value, instruction.shape ≠ .data value) :
    ∃ decoded, instruction.decoded? = some decoded ∧
      decodeAt? memory instruction.address = some decoded ∧ decoded.head.size = instruction.size := by
  cases framed : instruction.shape.framing? with
  | none =>
      obtain ⟨value, isData⟩ := Shape.framing?_eq_none_iff.1 framed
      exact absurd isData (operation value)
  | some framing =>
      have size : instruction.size = framing.head.size := Shape.size_of_framing framed
      rw [Shape.bytes_of_framing framed] at holds
      rw [Instruction.next, size] at addressable
      refine ⟨⟨framing.head, framing.payload?⟩, ?_, decodeAt?_of_holds holds (encodable.framed _ framed) addressable,
        size.symm⟩
      rw [Instruction.decoded?, Shape.head?_eq, framed, Shape.payload?_eq framed]
      rfl

/-- An operation of a written program is read back: its head, and the whole number of its operand. -/
theorem reads_back_of_holds {memory : Memory} {instruction : Instruction} {head : Head}
    (holds : memory.Holds instruction.address instruction.shape.bytes) (encodable : instruction.Encodable)
    (addressable : 8 * instruction.next ≤ bitAddressBound) (listed : instruction.shape.head? = some head) :
    memory.readByte instruction.address = .ok head.encode ∧ head.size = instruction.shape.size ∧
      (head.mode ≠ .accumulator → ∃ value word, instruction.shape.payload? = some value ∧
        memory.readWord (instruction.address + 1) = .ok word ∧ word.toNat = value) := by
  rw [Shape.head?_eq] at listed
  obtain ⟨framing, framed, rfl⟩ := Option.map_eq_some_iff.1 listed
  have size := Shape.size_of_framing framed
  have positive := framing.size_pos
  rw [Shape.bytes_of_framing framed] at holds
  rw [Instruction.next, Instruction.size, size] at addressable
  refine ⟨readByte_of_holds holds (by omega), size.symm, fun named => ?_⟩
  obtain ⟨value, payload⟩ := Option.isSome_iff_exists.1 (framing.payload?_isSome_iff.2 named)
  have narrow := (encodable.framed _ framed).narrow value payload
  have long : framing.head.size = 3 := by
    cases found : framing.head.mode <;> simp_all [Head.size, Mode.instructionBytes, Mode.operandBytes]
  exact ⟨value, _, (Shape.payload?_eq framed).trans payload, readWord_of_holds holds (by omega) payload narrow,
    UInt16.toNat_ofNat_of_lt' narrow⟩

theorem data_of_holds {memory : Memory} {instruction : Instruction} {value : Nat}
    (holds : memory.Holds instruction.address instruction.shape.bytes) (encodable : instruction.Encodable)
    (addressable : 8 * instruction.next ≤ bitAddressBound) (isData : instruction.shape = .data value) :
    ∃ byte, memory.readByte instruction.address = .ok byte ∧ byte.toNat = value := by
  have positive := instruction.shape.size_pos
  have narrow := encodable.data value isData
  rw [Instruction.next, Instruction.size] at addressable
  rw [isData] at holds
  exact ⟨UInt8.ofNat value, readByte_eq_ok (by omega) (holds 0 Nat.one_pos), UInt8.toNat_ofNat_of_lt' narrow⟩

/-- A program that is written into blank memory can be read back from it.  Its instructions tile the memory from
    address 0 on; each operation is found at its address with the operand whole, each byte of data has its
    value, and zeros follow.  Bits have addresses of 64 bits, which bounds the size of a program. -/
theorem image_decodes_back {statements : List Statement} {instructions : List Instruction} {count : Nat}
    {image : Memory} (resolved : resolve statements = .ok instructions)
    (written : writeAll instructions (.zeroed count) = ⟨image, none⟩)
    (addressable : 8 * programSize instructions ≤ bitAddressBound) :
    image.size = count ∧ Tiles 0 (programSize instructions) instructions ∧
      (∀ instruction ∈ instructions, ∀ head, instruction.shape.head? = some head →
        image.readByte instruction.address = .ok head.encode ∧ Head.decode head.encode = .ok head ∧
        head.size = instruction.shape.size ∧
        (head.mode ≠ .accumulator → ∃ value word, instruction.shape.payload? = some value ∧
          image.readWord (instruction.address + 1) = .ok word ∧ word.toNat = value)) ∧
      (∀ instruction ∈ instructions, ∀ value, instruction.shape = .data value →
        ∃ byte, image.readByte instruction.address = .ok byte ∧ byte.toNat = value) ∧
      (∀ address, programSize instructions ≤ address → address < count → image.bytes[address]? = some 0) ∧
      ((∀ instruction ∈ instructions, ∀ value, instruction.shape ≠ .data value) →
        sweep? image (programSize instructions) 0 = some (instructions.filterMap Instruction.decoded?)) := by
  obtain ⟨result, laidOut, rfl⟩ := exists_of_map_eq_ok resolved
  obtain ⟨-, tiles, -⟩ := layout_eq_ok laidOut
  have success : (writeAll result.instructions (.zeroed count)).fault = none := by rw [written]
  have narrow : 8 * min (programSize result.instructions) (count + 1) ≤ bitAddressBound := by
    omega
  obtain ⟨encodable, -, whole⟩ :=
    writeAll_of_fault_eq_none tiles (Nat.zero_le _) (by rwa [size_zeroed]) success
  have image_eq : image = (writeAll result.instructions (.zeroed count)).memory := by rw [written]
  have holds : ∀ instruction ∈ result.instructions, image.Holds instruction.address instruction.shape.bytes :=
    fun instruction member => image_eq ▸ holds_writeAll_zeroed tiles narrow success member
  have bounded : ∀ instruction ∈ result.instructions, 8 * instruction.next ≤ bitAddressBound := by
    intro instruction member
    have := (tiles.bounds member).2
    omega
  refine ⟨?_, tiles, ?_, ?_, ?_, ?_⟩
  · rw [image_eq, whole, size_putBytes, size_zeroed]
  · intro instruction member head listed
    obtain ⟨byte, size, operand⟩ :=
      reads_back_of_holds (holds _ member) (encodable _ member) (bounded _ member) listed
    exact ⟨byte, Head.decode_encode head, size, operand⟩
  · intro instruction member value isData
    exact data_of_holds (holds _ member) (encodable _ member) (bounded _ member) isData
  · intro address behind inside
    have length := tiles.length_programBytes
    rw [image_eq, bytes_writeAll_zeroed tiles narrow success, List.getElem?_eq_none (by omega), if_pos inside]
    rfl
  · intro operations
    exact sweep?_of_tiles tiles fun instruction member => Instruction.found_of_holds (holds _ member)
      (encodable _ member) (bounded _ member) (operations _ member)

/-- A load, a jump back to it, a negation and a byte of data, in ten bytes of memory. -/
def sampleStatements : List Statement :=
  [⟨["again"], .binary .load .r1 (.immediate 515)⟩, ⟨[], .unary .jump none (some (.label "again"))⟩,
   ⟨[], .unary .not (some .r2) none⟩, ⟨[], .data 200⟩]

def sampleInstructions : List Instruction :=
  [⟨["again"], .binary .load .r1 (.immediate 515), 0⟩, ⟨[], .unary .jump none (some (.direct 0)), 3⟩,
   ⟨[], .unary .not (some .r2) none, 6⟩, ⟨[], .data 200, 7⟩]

def sampleImage : Memory := .ofBytes [0x45, 2, 3, 0x22, 0, 0, 0xC8, 200, 0, 0]

theorem image_decodes_back_sample :
    resolve sampleStatements = .ok sampleInstructions ∧
      writeAll sampleInstructions (.zeroed 10) = ⟨sampleImage, none⟩ ∧
      8 * programSize sampleInstructions ≤ bitAddressBound ∧
      ∃ value word, (Shape.unary .jump none (some (.direct 0)) : Shape Empty).payload? = some value ∧
        sampleImage.readWord 4 = .ok word ∧ word.toNat = value := by
  have resolved : resolve sampleStatements = .ok sampleInstructions := by decide
  have written : writeAll sampleInstructions (.zeroed 10) = ⟨sampleImage, none⟩ := by decide
  have addressable : 8 * programSize sampleInstructions ≤ bitAddressBound := by decide
  have shown := (image_decodes_back resolved written addressable).2.2.1
    ⟨[], .unary .jump none (some (.direct 0)), 3⟩ (by simp [sampleInstructions]) ⟨.jump, .r0, .direct⟩ rfl
  exact ⟨resolved, written, addressable, shown.2.2.2 (by decide)⟩

end WordMachine.Assembly
