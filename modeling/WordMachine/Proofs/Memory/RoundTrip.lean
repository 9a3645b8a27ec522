import WordMachine.Memory.Encoding
import WordMachine.Proofs.Except
import WordMachine.Proofs.Text.Base64Url
import WordMachine.Proofs.Text.Positional

/-! # Memory images are read back from text

What is written of a memory image is read as the image.  In a radix only the digits count, so a text may have
anything between them; around Base64 there may be blanks, and padding behind it.  The codec for Base64 can be any that
keeps to its documentation.
-/

namespace WordMachine

namespace Memory

variable {codec : Base64Url.Codec} {radix : Radix}

theorem byteOfDigits_of_formatByte {group : List Char} {byte : UInt8}
    (same : group.map Char.toUpper = radix.formatByte byte) : byteOfDigits radix group = .ok byte := by
  have small : byte.toNat < 256 := byte.toNat_lt
  rw [byteOfDigits, Radix.parseDigits_eq_ok_iff.2 (Radix.spells_of_formatByte byte same)]
  simp [Except.mapError, bind, Except.bind, pure, Except.pure, small]

/-- The digits of an image, without the ends of lines. -/
theorem spelled_intercalate (bytes : List UInt8) :
    radix.spelled (['\n'].intercalate (bytes.map radix.formatByte)) = bytes.flatMap radix.formatByte := by
  rw [Radix.spelled_intercalate, List.flatMap_map]
  exact congrArg bytes.flatMap (funext Radix.spelled_formatByte)

theorem spelled_toText (memory : Memory) :
    radix.spelled (memory.toText codec (.digits radix)).toList = memory.bytes.toList.flatMap radix.formatByte := by
  rw [← spelled_intercalate, toText, String.toList_intercalate, List.map_map]
  simp [Function.comp_def]

/-- An image is read from every text that has its digits, whatever stands between them. -/
theorem ofText_digits {memory : Memory} {text : String}
    (digits : radix.spelled text.toList = radix.spelled (memory.toText codec (.digits radix)).toList) :
    ofText codec (.digits radix) text = .ok memory := by
  rw [spelled_toText, Radix.spelled_eq_map_filter] at digits
  -- Group by group the digits are those of a byte, apart from their case.
  have groups : (chunks radix.digitsPerByte (text.toList.filter radix.isDigit)).map (List.map Char.toUpper) =
      memory.bytes.toList.map radix.formatByte := by
    rw [← chunks_map, digits, chunks_flatMap radix.digitsPerByte_pos radix.length_formatByte]
  rw [← List.forall₂_eq_eq_eq, List.forall₂_map_left_iff, List.forall₂_map_right_iff] at groups
  have bytes := mapM_eq_ok_iff.2 (groups.imp fun _ _ => byteOfDigits_of_formatByte)
  simp only [ofText, bytes, bind, Except.bind, pure, Except.pure, ofBytes, Array.toArray_toList]

theorem spelled_toText_append_newline (memory : Memory) :
    radix.spelled (memory.toText codec (.digits radix) ++ "\n").toList =
      radix.spelled (memory.toText codec (.digits radix)).toList := by
  have newline : radix.spelled "\n".toList = [] := radix.spelled_newline
  rw [String.toList_append, Radix.spelled_append, newline, List.append_nil]

theorem isBlank_symbol : ∀ value < 64, Text.isBlank (Base64Url.symbol value) = false := by
  decide

/-- An image is read from Base64 between blanks, with padding or without. -/
theorem ofText_base64Url (documented : codec.Documented) {memory : Memory} {before after : String} {signs : Nat}
    (blankBefore : ∀ c ∈ before.toList, Text.isBlank c) (blankAfter : ∀ c ∈ after.toList, Text.isBlank c)
    (fill : signs ≤ Base64Url.paddingSigns memory.size) :
    ofText codec .base64Url
      (before ++ (memory.toText codec .base64Url ++ String.ofList (List.replicate signs '=')) ++ after) =
        .ok memory := by
  have solid : ∀ c ∈ Base64Url.encode memory.bytes.toList ++ List.replicate signs '=', Text.isBlank c = false := by
    intro c member
    rcases List.mem_append.1 member with written | sign
    · obtain ⟨value, small, rfl⟩ := Base64Url.exists_of_mem_encode written
      exact isBlank_symbol value small
    · rw [List.eq_of_mem_replicate sign]
      decide
  have decoded : codec.decode (Base64Url.encode memory.bytes.toList ++ List.replicate signs '=') =
      .ok memory.bytes.toList := (documented.decode_eq _).trans (Base64Url.decode_encode fill)
  simp only [ofText, toText, documented.encode_eq, String.toList_append, String.toList_ofList,
    Text.trim_of_solid blankBefore solid blankAfter, decoded, Except.mapError, bind, Except.bind, pure, Except.pure,
    ofBytes, Array.toArray_toList]

theorem isBlank_of_mem_newline : ∀ c ∈ "\n".toList, Text.isBlank c :=
  List.forall_mem_singleton.2 (by decide)

theorem ofText_toText_append_newline (documented : codec.Documented) (memory : Memory) (encoding : Encoding) :
    ofText codec encoding (memory.toText codec encoding ++ "\n") = .ok memory := by
  cases encoding with
  | digits radix => exact ofText_digits (spelled_toText_append_newline memory)
  | base64Url =>
      have read := @ofText_base64Url codec documented memory "" "\n" 0 (by simp) isBlank_of_mem_newline
        (Nat.zero_le _)
      simpa using read

/-- What is written of an image is read as the image, in each encoding and with the end of line behind it.  In a radix
    every text is read that has the same digits in either case, and Base64 is read between blanks and with any of the
    padding signs that belong to it. -/
theorem texts_read_back (documented : codec.Documented) (memory : Memory) :
    (∀ radix text, radix.spelled text.toList = radix.spelled (memory.toText codec (.digits radix)).toList →
        ofText codec (.digits radix) text = .ok memory) ∧
      (∀ before after signs, (∀ c ∈ before.toList, Text.isBlank c) → (∀ c ∈ after.toList, Text.isBlank c) →
        signs ≤ Base64Url.paddingSigns memory.size →
        ofText codec .base64Url
          (before ++ (memory.toText codec .base64Url ++ String.ofList (List.replicate signs '=')) ++ after) =
            .ok memory) ∧
      ∀ encoding, ofText codec encoding (memory.toText codec encoding ++ "\n") = .ok memory :=
  ⟨fun _ _ => ofText_digits, fun _ _ _ => ofText_base64Url documented, ofText_toText_append_newline documented memory⟩

/-- An image that is read from texts with other characters around its digits. -/
def noisyImage : Memory := .ofBytes [0x48, 0xFF]

theorem texts_read_back_noisy :
    ofText Base64Url.codec (.digits .hexadecimal) "x4:8 --fF!" = .ok noisyImage ∧
      ofText Base64Url.codec .base64Url
        ("\n" ++ (noisyImage.toText Base64Url.codec .base64Url ++ String.ofList ['=']) ++ "\n") = .ok noisyImage ∧
      noisyImage.toText Base64Url.codec .base64Url = "SP8" := by
  have digits : Radix.hexadecimal.spelled "x4:8 --fF!".toList =
      Radix.hexadecimal.spelled (noisyImage.toText Base64Url.codec (.digits .hexadecimal)).toList := by decide
  obtain ⟨radixes, base64, -⟩ := texts_read_back Base64Url.documented_codec noisyImage
  exact ⟨radixes .hexadecimal _ digits, base64 "\n" "\n" 1 isBlank_of_mem_newline isBlank_of_mem_newline (by decide),
    by decide⟩

end Memory

end WordMachine
