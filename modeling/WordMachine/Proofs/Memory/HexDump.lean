import WordMachine.Memory.Dump
import WordMachine.Proofs.Assembly.Listing
import WordMachine.Proofs.Memory.RoundTrip
import WordMachine.Proofs.Text.Lines

/-! # Dumps show every byte

A dump divides memory into rows of sixteen bytes and shows each on a line of its own, behind a column with the address
of the first byte.  Without that column, of which the digits are hexadecimal too, a dump is a text of the memory that
is read back, so that no two memories have the same dump.
-/

namespace WordMachine.Memory

open Assembly (ShowsAddress showsAddress_padded)
open Numeral (digit digits digits_of_lt digits_of_le)

/-- The lines of a text with a line break between any two of them; the empty text has no lines. -/
def separatedLines (text : String) : List (List Char) :=
  if text = "" then [] else text.toList.splitOn '\n'

/-- A line without all that stands in front of its first colon, and without the colon. -/
def behindColon (line : List Char) : List Char := (line.dropWhile (· ≠ ':')).drop 1

/-- A dump without its column of addresses. -/
def bareDump (dump : String) : String :=
  String.ofList (['\n'].intercalate ((separatedLines dump).map behindColon))

/-- A byte in a dump: a space and two digits in upper case. -/
def shownByte (byte : UInt8) : List Char := [' ', digit (byte.toNat / 16), digit (byte.toNat % 16)]

/-- A line of a dump: an address up to the first colon, and then some bytes. -/
structure ShowsRow (line : List Char) (address : Nat) (bytes : List UInt8) : Prop where
  column : ShowsAddress (line.takeWhile (· ≠ ':')) address
  shown : line.dropWhile (· ≠ ':') = ':' :: bytes.flatMap shownByte

/-- The bytes of a line of a dump: as many as a line has room for, or what is left of them. -/
def row (memory : Memory) (line : Nat) : List UInt8 :=
  (memory.bytes.toList.drop (dumpWidth * line)).take dumpWidth

/-- How many lines a dump has. -/
def rowCount (memory : Memory) : Nat := (memory.size + (dumpWidth - 1)) / dumpWidth

section Bytes

theorem formatByte_hexadecimal (byte : UInt8) :
    Radix.hexadecimal.formatByte byte = [digit (byte.toNat / 16), digit (byte.toNat % 16)] := by
  have bound : byte.toNat < 256 := byte.toNat_lt
  have written : Radix.hexadecimal.formatByte byte = (digits 16 byte.toNat).leftpad 2 '0' := rfl
  rw [written]
  rcases Nat.lt_or_ge byte.toNat 16 with small | large
  · rw [digits_of_lt small, Nat.div_eq_of_lt small, Nat.mod_eq_of_lt small]
    rfl
  · rw [digits_of_le (by decide) large, digits_of_lt (by omega)]
    rfl

theorem shownByte_eq (byte : UInt8) : shownByte byte = ' ' :: Radix.hexadecimal.formatByte byte := by
  rw [formatByte_hexadecimal, shownByte]

theorem spelled_shownByte (byte : UInt8) :
    Radix.hexadecimal.spelled (shownByte byte) = Radix.hexadecimal.formatByte byte := by
  have space : Radix.hexadecimal.spelled [' '] = [] := by decide
  rw [shownByte_eq, ← List.singleton_append, Radix.spelled_append, space, Radix.spelled_formatByte, List.nil_append]

theorem spelled_flatMap_shownByte (bytes : List UInt8) :
    Radix.hexadecimal.spelled (bytes.flatMap shownByte) = bytes.flatMap Radix.hexadecimal.formatByte := by
  induction bytes with
  | nil => rfl
  | cons byte rest ih => rw [List.flatMap_cons, List.flatMap_cons, Radix.spelled_append, spelled_shownByte, ih]

end Bytes

section Lines

variable (address : Nat) (bytes : List UInt8)

theorem toList_dumpLine :
    (dumpLine address bytes).toList = Numeral.padded 16 4 address ++ ':' :: bytes.flatMap shownByte := by
  have shown : shownByte = fun byte => ' ' :: Radix.hexadecimal.formatByte byte := funext shownByte_eq
  simp [dumpLine, Numeral.address, String.toList_join, List.flatMap_map, shown]

theorem showsRow_dumpLine : ShowsRow (dumpLine address bytes).toList address bytes := by
  have shows := showsAddress_padded address
  have digits : ∀ c ∈ Numeral.padded 16 4 address, decide (c ≠ ':') = true := by
    intro c member
    rw [decide_eq_true_eq]
    rintro rfl
    exact absurd (shows.digits _ member) (by decide)
  rw [toList_dumpLine]
  refine ⟨?_, ?_⟩
  · rw [List.takeWhile_append_of_pos digits, List.takeWhile_cons_of_neg (by decide), List.append_nil]
    exact shows
  · rw [List.dropWhile_append_of_pos digits, List.dropWhile_cons_of_neg (by decide)]

theorem unbroken_dumpLine : '\n' ∉ (dumpLine address bytes).toList := by
  have column : '\n' ∉ Numeral.padded 16 4 address := fun member =>
    absurd ((showsAddress_padded address).digits _ member) (by decide)
  have digits : ∀ byte ∈ bytes, '\n' ∉ shownByte byte := by
    intro byte _ member
    rw [shownByte_eq, List.mem_cons] at member
    rcases member with space | digit
    · exact absurd space (by decide)
    · exact absurd (Radix.mem_alphabet_of_mem_formatByte byte digit) (by decide)
  rw [toList_dumpLine, List.mem_append, List.mem_cons, List.mem_flatMap]
  rintro (member | colon | ⟨byte, member, inside⟩)
  · exact column member
  · exact absurd colon (by decide)
  · exact digits byte member inside

theorem dumpLine_ne_nil : (dumpLine address bytes).toList ≠ [] := by
  rw [toList_dumpLine]
  simp

end Lines

section Dumps

variable (memory : Memory)

theorem chunks_eq_rows : chunks dumpWidth memory.bytes.toList = (List.range memory.rowCount).map memory.row :=
  chunks_eq_map_range (by decide) _

theorem flatMap_row : (List.range memory.rowCount).flatMap memory.row = memory.bytes.toList := by
  rw [List.flatMap_def, ← chunks_eq_rows, flatten_chunks]

theorem dumpLines_eq :
    memory.dumpLines = (List.range memory.rowCount).map fun line => dumpLine (dumpWidth * line) (memory.row line) := by
  rw [dumpLines, chunks_eq_rows]
  apply List.ext_getElem (by simp)
  intro line _ _
  simp

theorem toList_dump : memory.dump.toList = ['\n'].intercalate (memory.dumpLines.map String.toList) := by
  rw [dump, String.toList_intercalate]
  rfl

/-- The lines of a dump are those that it is made of. -/
theorem separatedLines_dump : separatedLines memory.dump = memory.dumpLines.map String.toList := by
  have made : ∀ line ∈ memory.dumpLines.map String.toList, '\n' ∉ line ∧ line ≠ [] := by
    intro line member
    rw [dumpLines_eq, List.map_map, List.mem_map] at member
    obtain ⟨number, -, rfl⟩ := member
    exact ⟨unbroken_dumpLine _ _, dumpLine_ne_nil _ _⟩
  have text := memory.toList_dump
  rw [separatedLines]
  cases lines : memory.dumpLines.map String.toList with
  | nil =>
      rw [lines] at text
      exact if_pos (String.toList_inj.1 text)
  | cons first rest =>
      rw [lines] at text made
      have nonempty : memory.dump ≠ "" := by
        intro empty
        rw [empty] at text
        obtain ⟨-, solid⟩ := made first List.mem_cons_self
        cases rest with
        | nil => exact solid (by simpa using text.symm)
        | cons next others => simp at text
      rw [if_neg nonempty, text, List.splitOn_intercalate '\n' (fun line member => (made line member).1) (by simp)]

theorem getElem?_separatedLines_dump {line : Nat} (inside : line < memory.rowCount) :
    (separatedLines memory.dump)[line]? = some (dumpLine (dumpWidth * line) (memory.row line)).toList := by
  rw [separatedLines_dump, dumpLines_eq, List.map_map, List.getElem?_map, List.getElem?_range inside]
  rfl

/-- The digits of a dump without its addresses are those of the memory. -/
theorem spelled_bareDump :
    Radix.hexadecimal.spelled (bareDump memory.dump).toList =
      memory.bytes.toList.flatMap Radix.hexadecimal.formatByte := by
  have behind : ∀ line,
      Radix.hexadecimal.spelled (behindColon (dumpLine (dumpWidth * line) (memory.row line)).toList) =
        (memory.row line).flatMap Radix.hexadecimal.formatByte := by
    intro line
    rw [behindColon, (showsRow_dumpLine _ _).shown, List.drop_one, List.tail_cons, spelled_flatMap_shownByte]
  rw [bareDump, String.toList_ofList, Radix.spelled_intercalate, separatedLines_dump, dumpLines_eq, List.map_map,
    List.map_map, List.flatMap_map, ← memory.flatMap_row, List.flatMap_assoc]
  simp only [Function.comp_apply, behind]

theorem ofText_bareDump (codec : Base64Url.Codec) :
    ofText codec (.digits .hexadecimal) (bareDump memory.dump) = .ok memory := by
  apply ofText_digits
  rw [spelled_bareDump, spelled_toText]

/-- A dump does not end with a line break. -/
theorem dump_ne_append_newline (front : String) : memory.dump ≠ front ++ "\n" := by
  intro ended
  have last : [] ∈ separatedLines memory.dump := by
    have nonempty : front ++ "\n" ≠ "" := by simp
    rw [ended, separatedLines, if_neg nonempty, String.toList_append]
    have split := Text.splitOn_append_newline front.toList []
    rw [show "\n".toList = ['\n'] from rfl, split]
    simp
  rw [separatedLines_dump, dumpLines_eq, List.map_map, List.mem_map] at last
  obtain ⟨line, -, empty⟩ := last
  exact dumpLine_ne_nil _ _ empty

end Dumps

/-- A dump shows every byte of memory once at its address: it has one line for sixteen bytes, the last one maybe with
    fewer, and each line shows the address of its first byte and then its bytes.  There is no line break at the end,
    and nothing at all of the empty memory.  Without its addresses a dump is read as the memory, which is therefore
    the only one with that dump. -/
theorem dump_shows_every_byte (codec : Base64Url.Codec) (memory : Memory) :
    ((separatedLines memory.dump).length = (memory.size + 15) / 16 ∧
      ∀ number < (memory.size + 15) / 16, ∃ line, (separatedLines memory.dump)[number]? = some line ∧
        ShowsRow line (16 * number) ((memory.bytes.toList.drop (16 * number)).take 16)) ∧
    ((memory.dump = "" ↔ memory.size = 0) ∧ ∀ front, memory.dump ≠ front ++ "\n") ∧
    ofText codec (.digits .hexadecimal) (bareDump memory.dump) = .ok memory ∧
    ∀ other : Memory, other.dump = memory.dump → other = memory := by
  have count : (separatedLines memory.dump).length = memory.rowCount := by
    rw [separatedLines_dump, dumpLines_eq, List.length_map, List.length_map, List.length_range]
  refine ⟨⟨count, ?_⟩, ⟨⟨?_, ?_⟩, memory.dump_ne_append_newline⟩, memory.ofText_bareDump codec, ?_⟩
  · intro number inside
    exact ⟨_, memory.getElem?_separatedLines_dump inside, showsRow_dumpLine _ _⟩
  · intro empty
    rw [empty] at count
    have none : (memory.size + 15) / 16 = 0 := count.symm
    omega
  · intro none
    have lines : memory.dumpLines = [] := by
      rw [dumpLines_eq, rowCount, none]
      rfl
    rw [dump, lines]
    rfl
  · intro other same
    have read := other.ofText_bareDump codec
    rw [same, memory.ofText_bareDump codec] at read
    exact (Except.ok.inj read).symm

/-- Memory of which the last row is short. -/
def shortRow : Memory := .ofBytes (List.replicate 16 0xC0 ++ [0x0A])

theorem dump_shows_every_byte_short :
    (∃ line, (separatedLines shortRow.dump)[1]? = some line ∧ ShowsAddress (line.takeWhile (· ≠ ':')) 16 ∧
      line.dropWhile (· ≠ ':') = ": 0A".toList) ∧
    ofText Base64Url.codec (.digits .hexadecimal) (bareDump shortRow.dump) = .ok shortRow ∧
    (Memory.ofBytes (List.replicate 17 0xC0)).dump ≠ shortRow.dump := by
  obtain ⟨⟨-, lines⟩, -, read, unique⟩ := dump_shows_every_byte Base64Url.codec shortRow
  obtain ⟨line, found, column, shown⟩ := lines 1 (by decide)
  exact ⟨⟨line, found, column, shown⟩, read, fun same => absurd (unique _ same) (by decide)⟩

end WordMachine.Memory
