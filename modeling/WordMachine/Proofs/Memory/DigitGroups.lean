import WordMachine.Proofs.Memory.RoundTrip

/-! # Reading any text in a radix

Reading in a radix takes the digits of a text from left to right, as many at a time as a byte may need, and each
group of digits is a byte.  `reads_every_text` says what comes out for every text: bytes, one for each group, unless
a group of three decimal digits spells more than a byte holds.
-/

namespace WordMachine

namespace Radix

variable (radix : Radix)

/-- The digits among the characters of a text, in either case. -/
def digitsIn (text : String) : List Char := text.toList.filter (·.toUpper ∈ radix.alphabet)

/-- The digits for one byte: as many as a byte may need, or what is left of them. -/
def group (digits : List Char) (index : Nat) : List Char :=
  (digits.drop (radix.digitsPerByte * index)).take radix.digitsPerByte

/-- How many groups there are of `count` digits, a last short one included. -/
def groupCount (count : Nat) : Nat := (count + radix.digitsPerByte - 1) / radix.digitsPerByte

theorem base_pow_digitsPerByte_le : radix.base ^ radix.digitsPerByte ≤ 1000 := by
  cases radix <;> decide

variable {radix}

theorem digitsIn_eq_filter (text : String) : radix.digitsIn text = text.toList.filter radix.isDigit := by
  apply List.filter_congr
  intro c _
  exact Bool.eq_iff_iff.2 (by simp [isDigit_iff])

theorem isDigit_of_mem_digitsIn (text : String) : ∀ c ∈ radix.digitsIn text, radix.isDigit c := by
  intro c member
  rw [digitsIn_eq_filter] at member
  exact (List.mem_filter.1 member).2

section Groups

variable {digits : List Char} {index : Nat}

theorem length_group : (radix.group digits index).length ≤ radix.digitsPerByte := List.length_take_le _ _

theorem mem_of_mem_group {c : Char} (member : c ∈ radix.group digits index) : c ∈ digits :=
  List.mem_of_mem_drop (List.mem_of_mem_take member)

theorem group_ne_nil (inside : index < radix.groupCount digits.length) : radix.group digits index ≠ [] := by
  have positive := radix.digitsPerByte_pos
  have started : radix.digitsPerByte * index < digits.length := by
    rw [groupCount, Nat.lt_div_iff_mul_lt positive] at inside
    rw [Nat.mul_comm]
    omega
  apply List.ne_nil_of_length_pos
  rw [group, List.length_take, List.length_drop]
  omega

theorem group_eq_nil (behind : radix.groupCount digits.length ≤ index) : radix.group digits index = [] := by
  have positive := radix.digitsPerByte_pos
  have ended : digits.length ≤ radix.digitsPerByte * index := by
    rw [groupCount, Nat.div_le_iff_le_mul_add_pred positive] at behind
    omega
  rw [group, List.drop_eq_nil_of_le ended, List.take_nil]

theorem positional_group_lt (only : ∀ c ∈ digits, radix.isDigit c) (index : Nat) :
    radix.positional (radix.group digits index) < radix.base ^ (radix.group digits index).length :=
  positional_lt fun _ member => only _ (mem_of_mem_group member)

/-- All numbers with the digits of a group fit into a byte, three decimal digits apart. -/
theorem pow_length_le {length : Nat} (short : length ≤ radix.digitsPerByte)
    (other : ¬ (radix = .decimal ∧ length = 3)) : radix.base ^ length ≤ 256 := by
  cases radix with
  | binary => exact Nat.pow_le_pow_right (by decide) short
  | hexadecimal => exact Nat.pow_le_pow_right (by decide) short
  | decimal =>
      have two : length ≤ 2 := by
        rw [digitsPerByte] at short
        have notThree : length ≠ 3 := fun three => other ⟨rfl, three⟩
        omega
      exact Nat.le_trans (Nat.pow_le_pow_right (by decide) two) (by decide)

/-- Only three decimal digits can spell more than a byte holds. -/
theorem positional_group_le_iff (only : ∀ c ∈ digits, radix.isDigit c) :
    (∀ index, radix.positional (radix.group digits index) ≤ 255) ↔
      (radix = .decimal → ∀ index, (radix.group digits index).length = 3 →
        radix.positional (radix.group digits index) ≤ 255) := by
  constructor
  · exact fun narrow _ index _ => narrow index
  · intro narrow index
    by_cases full : radix = .decimal ∧ (radix.group digits index).length = 3
    · exact narrow full.1 index full.2
    · exact Nat.le_of_lt_succ (Nat.lt_of_lt_of_le (positional_group_lt only index) (pow_length_le length_group full))

end Groups

end Radix

namespace Memory

variable {radix : Radix}

/-- A group of digits is the byte that it spells, or it spells too much. -/
theorem byteOfDigits_eq {group : List Char} (only : ∀ c ∈ group, radix.isDigit c) (nonempty : group ≠ [])
    (short : group.length ≤ radix.digitsPerByte) :
    byteOfDigits radix group =
      if radix.positional group ≤ 255 then .ok (UInt8.ofNat (radix.positional group))
      else .error (.byteOverflow (String.ofList group)) := by
  have bound : radix.positional group < 2 ^ 32 := by
    calc radix.positional group
        < radix.base ^ group.length := Radix.positional_lt only
      _ ≤ radix.base ^ radix.digitsPerByte := Nat.pow_le_pow_right (by have := radix.base_bounds; omega) short
      _ ≤ 1000 := radix.base_pow_digitsPerByte_le
      _ ≤ 2 ^ 32 := by decide
  have parsed : radix.parseDigits group = .ok (radix.positional group) :=
    Radix.parseDigits_eq_ok_iff.2 ⟨nonempty, fun c member => Radix.isDigit_iff.1 (only c member), rfl, bound⟩
  rw [byteOfDigits, parsed]
  by_cases narrow : radix.positional group ≤ 255
  · rw [if_pos narrow]
    simp [Except.mapError, bind, Except.bind, pure, Except.pure, Nat.lt_succ_of_le narrow]
  · have wide : ¬ radix.positional group < 256 := fun small => narrow (Nat.le_of_lt_succ small)
    rw [if_neg narrow]
    simp [Except.mapError, bind, Except.bind, wide]

/-- The byte of the group at an index. -/
def readGroup (radix : Radix) (digits : List Char) (index : Nat) : Except Fault UInt8 :=
  byteOfDigits radix (radix.group digits index)

theorem ofText_eq_readGroups (codec : Base64Url.Codec) (text : String) :
    ofText codec (.digits radix) text =
      ((List.range (radix.groupCount (radix.digitsIn text).length)).mapM
        (readGroup radix (radix.digitsIn text))).map ofBytes := by
  have groups : chunks radix.digitsPerByte (text.toList.filter radix.isDigit) =
      (List.range (radix.groupCount (radix.digitsIn text).length)).map (radix.group (radix.digitsIn text)) := by
    rw [← Radix.digitsIn_eq_filter, chunks_eq_map_range radix.digitsPerByte_pos]
    rfl
  rw [ofText, groups, List.mapM_map]
  rfl

section Groups

variable {digits : List Char} {index : Nat} (only : ∀ c ∈ digits, radix.isDigit c)
  (inside : index < radix.groupCount digits.length)

include only inside

theorem readGroup_eq_ok_iff (byte : UInt8) :
    readGroup radix digits index = .ok byte ↔
      radix.positional (radix.group digits index) ≤ 255 ∧ byte.toNat = radix.positional (radix.group digits index) := by
  rw [readGroup, byteOfDigits_eq (fun _ member => only _ (Radix.mem_of_mem_group member)) (Radix.group_ne_nil inside)
    Radix.length_group]
  split
  next narrow =>
    have value : (UInt8.ofNat (radix.positional (radix.group digits index))).toNat =
        radix.positional (radix.group digits index) := UInt8.toNat_ofNat_of_lt' (Nat.lt_succ_of_le narrow)
    rw [Except.ok.injEq, ← UInt8.toNat_inj, value, eq_comm, and_iff_right narrow]
  next wide => simp [wide]

theorem readGroup_eq_error_iff (fault : Fault) :
    readGroup radix digits index = .error fault ↔
      255 < radix.positional (radix.group digits index) ∧
        fault = .byteOverflow (String.ofList (radix.group digits index)) := by
  rw [readGroup, byteOfDigits_eq (fun _ member => only _ (Radix.mem_of_mem_group member)) (Radix.group_ne_nil inside)
    Radix.length_group]
  split
  next narrow => simp [Nat.not_lt.2 narrow]
  next wide => rw [Except.error.injEq, eq_comm, and_iff_right (Nat.lt_of_not_le wide)]

end Groups

section Texts

variable (codec : Base64Url.Codec) (text : String)

/-- Only groups with digits spell more than zero. -/
theorem lt_groupCount_of_positional {digits : List Char} {index : Nat}
    (positive : 0 < radix.positional (radix.group digits index)) : index < radix.groupCount digits.length := by
  by_contra behind
  rw [Radix.group_eq_nil (Nat.le_of_not_lt behind), Radix.positional] at positive
  exact Nat.lt_irrefl 0 positive

/-- A text is read as one byte for each group of its digits if they are all small enough. -/
theorem ofText_digits_eq_ok_iff (memory : Memory) :
    ofText codec (.digits radix) text = .ok memory ↔
      (∀ index, radix.positional (radix.group (radix.digitsIn text) index) ≤ 255) ∧
        memory.size = radix.groupCount (radix.digitsIn text).length ∧
        ∀ index < memory.size, memory.bytes[index]?.map UInt8.toNat =
          some (radix.positional (radix.group (radix.digitsIn text) index)) := by
  have only := @Radix.isDigit_of_mem_digitsIn radix text
  rw [ofText_eq_readGroups]
  constructor
  · intro success
    obtain ⟨bytes, traversal, rfl⟩ := exists_of_map_eq_ok success
    obtain ⟨length, each⟩ := mapM_range_eq_ok_iff.1 traversal
    have size : (ofBytes bytes).size = bytes.length := List.size_toArray
    refine ⟨fun index => ?_, size.trans length, fun index inside => ?_⟩
    · by_contra wide
      have inside := lt_groupCount_of_positional (Nat.lt_trans (by decide) (Nat.lt_of_not_le wide))
      obtain ⟨byte, -, group⟩ := each index inside
      exact wide ((readGroup_eq_ok_iff only inside byte).1 group).1
    · rw [size, length] at inside
      obtain ⟨byte, place, group⟩ := each index inside
      rw [ofBytes, List.getElem?_toArray, place, Option.map_some, ((readGroup_eq_ok_iff only inside byte).1 group).2]
  · rintro ⟨narrow, length, bytes⟩
    have traversal : (List.range (radix.groupCount (radix.digitsIn text).length)).mapM
        (readGroup radix (radix.digitsIn text)) = .ok memory.bytes.toList := by
      refine mapM_range_eq_ok_iff.2 ⟨length, fun index inside => ?_⟩
      obtain ⟨byte, place, value⟩ := Option.map_eq_some_iff.1 (bytes index (length ▸ inside))
      rw [Array.getElem?_toList]
      exact ⟨byte, place, (readGroup_eq_ok_iff only inside byte).2 ⟨narrow index, value⟩⟩
    rw [traversal]
    rfl

/-- A text is refused for the first group that spells more than a byte holds. -/
theorem ofText_digits_eq_error_iff (fault : Fault) :
    ofText codec (.digits radix) text = .error fault ↔
      ∃ index, 255 < radix.positional (radix.group (radix.digitsIn text) index) ∧
        (∀ earlier < index, radix.positional (radix.group (radix.digitsIn text) earlier) ≤ 255) ∧
        fault = .byteOverflow (String.ofList (radix.group (radix.digitsIn text) index)) := by
  have only := @Radix.isDigit_of_mem_digitsIn radix text
  rw [ofText_eq_readGroups, map_eq_error_iff, mapM_range_eq_error_iff]
  constructor
  · rintro ⟨index, inside, stops, passed⟩
    obtain ⟨wide, same⟩ := (readGroup_eq_error_iff only inside fault).1 stops
    refine ⟨index, wide, fun earlier before => ?_, same⟩
    obtain ⟨byte, read⟩ := passed earlier before
    exact ((readGroup_eq_ok_iff only (Nat.lt_trans before inside) byte).1 read).1
  · rintro ⟨index, wide, narrow, same⟩
    have inside := lt_groupCount_of_positional (Nat.lt_trans (by decide) wide)
    refine ⟨index, inside, (readGroup_eq_error_iff only inside fault).2 ⟨wide, same⟩, fun earlier before => ?_⟩
    have value := UInt8.toNat_ofNat_of_lt' (Nat.lt_succ_of_le (narrow earlier before))
    exact ⟨_, (readGroup_eq_ok_iff only (Nat.lt_trans before inside) _).2 ⟨narrow earlier before, value⟩⟩

end Texts

/-- What is read of any text in a radix.  Its digits never fail to be numbers, and in binary and in hexadecimal all
    texts are read; a decimal text is read if no group of three digits is above 255.  Then there is one byte for each
    group, a short last group included, and it is the number that the group spells.  Otherwise the text is refused for
    the first group above 255. -/
theorem reads_every_text (codec : Base64Url.Codec) (radix : Radix) (text : String) :
    let digits := radix.digitsIn text
    let number := fun index => radix.positional (radix.group digits index)
    (∀ error, ofText codec (.digits radix) text ≠ .error (.radix error)) ∧
      ((∃ memory, ofText codec (.digits radix) text = .ok memory) ↔
        (radix = .decimal → ∀ index, (radix.group digits index).length = 3 → number index ≤ 255)) ∧
      (∀ memory, ofText codec (.digits radix) text = .ok memory ↔
        (∀ index, number index ≤ 255) ∧ memory.size = radix.groupCount digits.length ∧
          ∀ index < memory.size, memory.bytes[index]?.map UInt8.toNat = some (number index)) ∧
      ∀ fault, ofText codec (.digits radix) text = .error fault ↔
        ∃ index, 255 < number index ∧ (∀ earlier < index, number earlier ≤ 255) ∧
          fault = .byteOverflow (String.ofList (radix.group digits index)) := by
  intro digits number
  refine ⟨fun error failed => ?_, ?_, ofText_digits_eq_ok_iff codec text, ofText_digits_eq_error_iff codec text⟩
  · obtain ⟨index, -, -, other⟩ := (ofText_digits_eq_error_iff codec text _).1 failed
    cases other
  · rw [← Radix.positional_group_le_iff (Radix.isDigit_of_mem_digitsIn text)]
    constructor
    · rintro ⟨memory, success⟩
      exact ((ofText_digits_eq_ok_iff codec text memory).1 success).1
    · intro narrow
      cases outcome : ofText codec (.digits radix) text with
      | ok memory => exact ⟨memory, rfl⟩
      | error fault =>
          obtain ⟨index, wide, -, -⟩ := (ofText_digits_eq_error_iff codec text fault).1 outcome
          exact absurd (narrow index) (Nat.not_le.2 wide)

/-- A decimal text with a group that is too large, and a hexadecimal one that ends in half a byte. -/
theorem reads_every_text_uneven :
    ofText Base64Url.codec (.digits .decimal) "25 5,256" = .error (.byteOverflow "256") ∧
      ofText Base64Url.codec (.digits .hexadecimal) "0x1é2F c" = .ok (ofBytes [0x01, 0x2F, 0x0C]) := by
  obtain ⟨-, -, -, refused⟩ := reads_every_text Base64Url.codec .decimal "25 5,256"
  obtain ⟨-, -, read, -⟩ := reads_every_text Base64Url.codec .hexadecimal "0x1é2F c"
  have narrow := (Radix.positional_group_le_iff (Radix.isDigit_of_mem_digitsIn "0x1é2F c")).2
    fun other : Radix.hexadecimal = .decimal => nomatch other
  exact ⟨(refused _).2 ⟨1, by decide⟩, (read _).2 ⟨narrow, by decide, by decide⟩⟩

end Memory

end WordMachine
