import WordMachine.Proofs.Memory.Bytes

/-! # Memory as a list of bits

The accesses to ranges of bits, said on a plain list of bits: a range is a slice of the list, a write replaces a
slice, and a number stands in a slice with its most significant bit first.  `runs_as_bit_list` says that memory
answers and changes like that list, whatever is done to it.
-/

namespace WordMachine

/-- The widths of the integers that ranges of bits are read into and written from. -/
inductive IntegerWidth where
  | w8
  | w16
  | w32
  | w64
  | w128
  deriving Repr, DecidableEq

def IntegerWidth.bits : IntegerWidth → Nat
  | .w8 => 8
  | .w16 => 16
  | .w32 => 32
  | .w64 => 64
  | .w128 => 128

namespace Memory

/-- A call that reads or writes a range of bits. -/
inductive Access where
  | getBits (start length : Nat)
  | getBitString (start length : Nat)
  | getNumber (width : IntegerWidth) (start length : Nat)
  | setBits (start : Nat) (bits : List Bool)
  | setBitString (start : Nat) (text : String)
  | setNumber (width : IntegerWidth) (start length : Nat) (number : BitVec width.bits)

/-- What an access answers if it is not refused. -/
inductive Answer where
  | bits (bits : List Bool)
  | text (text : String)
  | number (number : Nat)
  | done
  deriving Repr, DecidableEq

/-- What an access answers, and the state that it leaves. -/
structure Effect (State : Type) where
  answer : Except Fault Answer
  state : State

namespace Effect

variable {State View α β : Type}

/-- What is seen of an effect through a view of states. -/
def map (view : State → View) (effect : Effect State) : Effect View :=
  ⟨effect.answer, view effect.state⟩

def ofRead (state : State) (answer : α → Answer) (result : Except Fault α) : Effect State :=
  ⟨result.map answer, state⟩

/-- A refused write leaves the state as it was. -/
def ofWrite (state : State) : Except Fault State → Effect State
  | .ok written => ⟨.ok .done, written⟩
  | .error fault => ⟨.error fault, state⟩

theorem map_ofRead (view : State → View) (state : State) (answer : β → Answer) (f : α → β)
    (result : Except Fault α) :
    (ofRead state answer (result.map f)).map view = ofRead (view state) (answer ∘ f) result := by
  cases result <;> rfl

theorem map_ofWrite (view : State → View) (state : State) (result : Except Fault State) :
    (ofWrite state result).map view = ofWrite (view state) (result.map view) := by
  cases result <;> rfl

end Effect

def perform (memory : Memory) : Access → Effect Memory
  | .getBits start length => .ofRead memory .bits (memory.getBits start length)
  | .getBitString start length => .ofRead memory .text (memory.getBitString start length)
  | .getNumber width start length => .ofRead memory .number (memory.getNumber width.bits start length)
  | .setBits start bits => .ofWrite memory (memory.setBits start bits)
  | .setBitString start text => .ofWrite memory (memory.setBitString start text)
  | .setNumber _ start length number => .ofWrite memory (memory.setNumber start length number.toNat)

/-- The effects of some accesses, one after the other; what a refused access leaves is gone on with. -/
def performAll {State : Type} (perform : State → Access → Effect State) (state : State) :
    List Access → List (Effect State)
  | [] => []
  | access :: rest => perform state access :: performAll perform (perform state access).state rest

end Memory

namespace BitList

open Memory (Access Effect)

/-- The number that bits spell: a bit counts as much as there are numbers behind it. -/
def value : List Bool → Nat
  | [] => 0
  | bit :: rest => (if bit then 2 ^ rest.length else 0) + value rest

/-- A number in a field of a given length. -/
def ofValue : Nat → Nat → List Bool
  | 0, _ => []
  | length + 1, number => (number / 2 ^ length % 2 = 1) :: ofValue length number

def text (bits : List Bool) : String := String.ofList (bits.map fun bit => if bit then '1' else '0')

def slice (bits : List Bool) (start length : Nat) : List Bool := (bits.drop start).take length

def replace (bits : List Bool) (start : Nat) (field : List Bool) : List Bool :=
  bits.take start ++ field ++ bits.drop (start + field.length)

/-- The first character of a text that is neither `0` nor `1`, with its position. -/
def firstNoBit? (text : List Char) : Option (Char × Nat) :=
  text.zipIdx.find? fun (character, _) => character ≠ '0' ∧ character ≠ '1'

def read (bits : List Bool) (start length : Nat) : Except Memory.Fault (List Bool) :=
  if start + length ≤ bits.length then .ok (slice bits start length)
  else .error (.outOfBounds start length bits.length)

def write (bits : List Bool) (start : Nat) (field : List Bool) : Except Memory.Fault (List Bool) :=
  if start + field.length ≤ bits.length then .ok (replace bits start field)
  else .error (.outOfBounds start field.length bits.length)

def readNumber (bits : List Bool) (capacity start length : Nat) : Except Memory.Fault (List Bool) :=
  if capacity < length then .error (.fieldTooWide length capacity) else read bits start length

def writeText (bits : List Bool) (start : Nat) (text : List Char) : Except Memory.Fault (List Bool) :=
  match firstNoBit? text with
  | some (character, position) => .error (.invalidBit character position)
  | none => write bits start (text.map (· = '1'))

def writeNumber (bits : List Bool) (start length number : Nat) : Except Memory.Fault (List Bool) :=
  if 2 ^ length ≤ number then .error (.valueTooWide number length)
  else write bits start (ofValue length number)

/-- The meaning of an access: whether the whole range lies in the list is looked at last. -/
def perform (bits : List Bool) : Access → Effect (List Bool)
  | .getBits start length => .ofRead bits .bits (read bits start length)
  | .getBitString start length => .ofRead bits (.text ∘ text) (read bits start length)
  | .getNumber width start length => .ofRead bits (.number ∘ value) (readNumber bits width.bits start length)
  | .setBits start field => .ofWrite bits (write bits start field)
  | .setBitString start text => .ofWrite bits (writeText bits start text.toList)
  | .setNumber _ start length number => .ofWrite bits (writeNumber bits start length number.toNat)

@[simp] theorem length_ofValue (length number : Nat) : (ofValue length number).length = length := by
  induction length with
  | zero => rfl
  | succ length ih => rw [ofValue, List.length_cons, ih]

theorem toNat_eq_value (bits : List Bool) : Bits.toNat bits = value bits := by
  induction bits with
  | nil => rfl
  | cons bit rest ih =>
      rw [← List.singleton_append, Bits.toNat_append, ih, List.singleton_append, value]
      cases bit <;> simp [Bits.toNat]

theorem ofNat_eq_ofValue (length number : Nat) : Bits.ofNat length number = ofValue length number := by
  induction length with
  | zero => rfl
  | succ length ih =>
      rw [Nat.add_comm, Bits.ofNat_add, ih, Nat.add_comm, ofValue]
      simp [Bits.ofNat, Nat.testBit_zero]

end BitList

namespace Memory

theorem bits_eq_readBits (memory : Memory) : memory.bits = memory.readBits 0 memory.bitSize := by
  simp [bits, readBits]

theorem readBits_congr {a b : Memory} {start length : Nat}
    (same : ∀ offset < length, a.bit (start + offset) = b.bit (start + offset)) :
    a.readBits start length = b.readBits start length :=
  List.map_congr_left fun offset member => same offset (List.mem_range.1 member)

@[simp] theorem length_readBits (memory : Memory) (start length : Nat) :
    (memory.readBits start length).length = length := by
  simp [readBits]

section Range

variable {memory : Memory} {start length : Nat} (inside : start + length ≤ memory.bitSize)

include inside

/-- A range in memory divides the bits into those before, in and behind it. -/
theorem bits_split :
    memory.bits = memory.readBits 0 start ++ (memory.readBits start length ++
      memory.readBits (start + length) (memory.bitSize - (start + length))) := by
  obtain ⟨rest, total⟩ := Nat.exists_eq_add_of_le inside
  rw [bits_eq_readBits, total, Nat.add_assoc start, readBits_add, readBits_add, Nat.zero_add,
    ← Nat.add_assoc start, Nat.add_sub_cancel_left]

theorem take_bits : memory.bits.take start = memory.readBits 0 start := by
  rw [bits_split inside, List.take_left' (length_readBits _ _ _)]

theorem readBits_eq_slice : memory.readBits start length = BitList.slice memory.bits start length := by
  rw [BitList.slice, bits_split inside, List.drop_left' (length_readBits _ _ _),
    List.take_left' (length_readBits _ _ _)]

theorem drop_bits : memory.bits.drop (start + length) =
    memory.readBits (start + length) (memory.bitSize - (start + length)) := by
  rw [bits_split inside, ← List.append_assoc, List.drop_left' (by simp)]

end Range

theorem bits_writeBits {memory : Memory} {start : Nat} {field : List Bool}
    (inside : start + field.length ≤ memory.bitSize) :
    (memory.writeBits start field).bits = BitList.replace memory.bits start field := by
  have size : (memory.writeBits start field).bitSize = memory.bitSize := by
    rw [bitSize, size_writeBits, bitSize]
  have before : (memory.writeBits start field).readBits 0 start = memory.readBits 0 start := by
    refine readBits_congr fun offset bound => ?_
    rw [bit_writeBits _ _ _ _ inside, if_neg (by omega)]
  have within : (memory.writeBits start field).readBits start field.length = field := by
    apply List.ext_getElem (length_readBits _ _ _)
    intro offset _ bound
    simp [readBits, bit_writeBits _ _ _ _ inside, List.getElem?_eq_getElem bound]
  have behind : ∀ length, (memory.writeBits start field).readBits (start + field.length) length =
      memory.readBits (start + field.length) length := by
    intro length
    refine readBits_congr fun offset _ => ?_
    rw [bit_writeBits _ _ _ _ inside, if_pos (by omega), List.getElem?_eq_none (by omega)]
    rfl
  rw [bits_split (size ▸ inside), before, within, behind, size, BitList.replace, take_bits inside,
    drop_bits inside, List.append_assoc]

/-- Byte 0 comes first, and of a byte the most significant bit. -/
theorem bits_eq_flatMap (memory : Memory) :
    memory.bits = memory.bytes.toList.flatMap fun byte => BitList.ofValue 8 byte.toNat := by
  have front : ∀ count ≤ memory.size, memory.readBits 0 (8 * count) =
      (memory.bytes.toList.take count).flatMap fun byte => BitList.ofValue 8 byte.toNat := by
    intro count bound
    induction count with
    | zero => rfl
    | succ count ih =>
        have found : memory.bytes[count]? = some memory.bytes[count] := Array.getElem?_eq_getElem bound
        rw [Nat.mul_succ, readBits_add, ih (by omega), Nat.zero_add, readBits_byte found, BitList.ofNat_eq_ofValue,
          List.take_add_one, Array.getElem?_toList, found, List.flatMap_append]
        simp
  rw [bits_eq_readBits, bitSize, front _ (Nat.le_refl _), List.take_of_length_le (by simp [size])]

/-- Different memories are different lists of bits. -/
theorem bits_injective {a b : Memory} (same : a.bits = b.bits) : a = b := by
  have sizes : a.bitSize = b.bitSize := by rw [← length_bits, same, length_bits]
  refine ext_bit (Nat.eq_of_mul_eq_mul_left (by decide) sizes) fun index bound => ?_
  have entries : a.bits[index]? = b.bits[index]? := by rw [same]
  simpa [bits, bound, sizes ▸ bound] using entries

theorem checkRange_then {α : Type} (memory : Memory) (start length : Nat) (next : Except Fault α) :
    (do memory.checkRange start length; next) =
      if start + length ≤ memory.bits.length then next
      else .error (.outOfBounds start length memory.bits.length) := by
  rw [checkRange, length_bits]
  split <;> rfl

theorem getBits_eq_read (memory : Memory) (start length : Nat) :
    memory.getBits start length = BitList.read memory.bits start length := by
  rw [getBits, checkRange_then, BitList.read]
  split
  next inside =>
    rw [readBits_eq_slice (by rwa [length_bits] at inside)]
    rfl
  next => rfl

theorem getBitString_eq_read (memory : Memory) (start length : Nat) :
    memory.getBitString start length = (BitList.read memory.bits start length).map BitList.text := by
  rw [getBitString, getBits_eq_read]
  cases BitList.read memory.bits start length <;> rfl

theorem getNumber_eq_readNumber (memory : Memory) (capacity start length : Nat) :
    memory.getNumber capacity start length =
      (BitList.readNumber memory.bits capacity start length).map BitList.value := by
  rw [getNumber, BitList.readNumber, getBits_eq_read]
  by_cases wide : capacity < length
  · simp [wide, bind, Except.bind, Except.map]
  · cases read : BitList.read memory.bits start length <;>
      simp [wide, bind, Except.bind, Except.map, pure, Except.pure, BitList.toNat_eq_value]

theorem setBits_eq_write (memory : Memory) (start : Nat) (field : List Bool) :
    (memory.setBits start field).map bits = BitList.write memory.bits start field := by
  rw [setBits, checkRange_then, BitList.write]
  split
  next inside =>
    rw [← bits_writeBits (by rwa [length_bits] at inside)]
    rfl
  next => rfl

/-- Reading stops at the first character that is no bit, and reports its place in the whole text. -/
theorem parseBits_eq (position : Nat) (text : List Char) :
    parseBits position text =
      match (text.zipIdx position).find? fun (character, _) => character ≠ '0' ∧ character ≠ '1' with
      | some (character, position) => .error (.invalidBit character position)
      | none => .ok (text.map (· = '1')) := by
  fun_induction parseBits position text with
  | case1 => rfl
  | case2 position rest ih =>
      rw [ih]
      simp only [List.zipIdx_cons, List.find?_cons]
      cases (rest.zipIdx (position + 1)).find? fun (character, _) => character ≠ '0' ∧ character ≠ '1' <;> rfl
  | case3 position rest ih =>
      rw [ih]
      simp only [List.zipIdx_cons, List.find?_cons]
      cases (rest.zipIdx (position + 1)).find? fun (character, _) => character ≠ '0' ∧ character ≠ '1' <;> rfl
  | case4 position character rest notZero notOne =>
      rw [List.zipIdx_cons, List.find?_cons_of_pos]
      simpa using ⟨fun zero => notZero zero, fun one => notOne one⟩

theorem setBitString_eq_writeText (memory : Memory) (start : Nat) (text : String) :
    (memory.setBitString start text).map bits = BitList.writeText memory.bits start text.toList := by
  rw [setBitString, BitList.writeText, BitList.firstNoBit?, parseBits_eq]
  cases text.toList.zipIdx.find? fun (character, _) => character ≠ '0' ∧ character ≠ '1' with
  | none => exact setBits_eq_write memory start _
  | some found => rfl

theorem setNumber_eq_writeNumber (memory : Memory) (start length number : Nat) :
    (memory.setNumber start length number).map bits =
      BitList.writeNumber memory.bits start length number := by
  have narrow := Bits.width_le_iff number length
  rw [Nat.one_shiftLeft] at narrow
  rw [BitList.writeNumber]
  by_cases wide : 2 ^ length ≤ number
  · rw [if_pos wide, setNumber, if_pos (by omega)]
    rfl
  · have written := setBits_eq_write memory start (Bits.ofNat length number)
    rw [BitList.ofNat_eq_ofValue] at written
    rw [if_neg wide, ← written, setNumber, if_neg (by omega), setBits, BitList.length_ofValue,
      BitList.ofNat_eq_ofValue]

/-- An access to memory is that access to its list of bits. -/
theorem map_bits_perform (memory : Memory) (access : Access) :
    (memory.perform access).map bits = BitList.perform memory.bits access := by
  cases access with
  | getBits start length =>
      rw [perform, BitList.perform, getBits_eq_read]
      rfl
  | getBitString start length => rw [perform, BitList.perform, getBitString_eq_read, Effect.map_ofRead]
  | getNumber width start length =>
      rw [perform, BitList.perform, getNumber_eq_readNumber, Effect.map_ofRead]
  | setBits start field => rw [perform, BitList.perform, Effect.map_ofWrite, setBits_eq_write]
  | setBitString start text => rw [perform, BitList.perform, Effect.map_ofWrite, setBitString_eq_writeText]
  | setNumber width start length number =>
      rw [perform, BitList.perform, Effect.map_ofWrite, setNumber_eq_writeNumber]

/-- A view of states that goes along with every single access goes along with all sequences of them. -/
theorem map_performAll {State View : Type} {view : State → View} {perform : State → Access → Effect State}
    {meaning : View → Access → Effect View}
    (step : ∀ state access, (perform state access).map view = meaning (view state) access)
    (state : State) (accesses : List Access) :
    (performAll perform state accesses).map (Effect.map view) = performAll meaning (view state) accesses := by
  induction accesses generalizing state with
  | nil => rfl
  | cons access rest ih =>
      rw [performAll, performAll, List.map_cons, ih, ← step]
      rfl

/-- Memory is a list of bits: byte 0 comes first and of a byte the most significant bit, no two memories are the
    same list, and whatever accesses are made, memory answers and changes as the list does. -/
theorem runs_as_bit_list (memory : Memory) (accesses : List Access) :
    memory.bits = memory.bytes.toList.flatMap (fun byte => BitList.ofValue 8 byte.toNat) ∧
      Function.Injective bits ∧
      (performAll perform memory accesses).map (Effect.map bits) =
        performAll BitList.perform memory.bits accesses :=
  ⟨bits_eq_flatMap memory, fun _ _ => bits_injective, map_performAll map_bits_perform memory accesses⟩

/-- A number goes into a longer field with zeros in front. -/
example : ((ofBytes [0xFF, 0xFF]).perform (.setNumber .w8 2 12 3)).state = ofBytes [0xC0, 0x0F] := by decide

end Memory

end WordMachine
