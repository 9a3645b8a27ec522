import WordMachine.Text.Base64Url

/-! # Base64 text is read back

Bytes are written as values of six bits, one symbol for each.  Reading finds the values of the symbols and puts the
bytes together again, group by group, with or without the padding signs that fill the last group.
-/

namespace WordMachine.Base64Url

/-- The values of six bits that bytes are written as. -/
def sextets : List UInt8 → List Nat
  | [] => []
  | [a] => [a.toNat / 4, a.toNat % 4 * 16]
  | [a, b] => [a.toNat / 4, a.toNat % 4 * 16 + b.toNat / 16, b.toNat % 16 * 4]
  | a :: b :: c :: rest =>
      a.toNat / 4 :: (a.toNat % 4 * 16 + b.toNat / 16) :: (b.toNat % 16 * 4 + c.toNat / 64) :: c.toNat % 64 ::
        sextets rest

/-- The padding signs that fill the last group of a text for some bytes. -/
def paddingSigns (count : Nat) : Nat := (3 - count % 3) % 3

/-- The byte of a symbol in a text. -/
def code (value : Nat) : Nat := (symbol value).toNat

theorem encode_eq_map (bytes : List UInt8) : encode bytes = (sextets bytes).map symbol := by
  fun_induction encode bytes with
  | case1 => rfl
  | case2 => rfl
  | case3 => rfl
  | case4 a b c rest ih => rw [ih, sextets]; rfl

theorem sextets_lt (bytes : List UInt8) : ∀ value ∈ sextets bytes, value < 64 := by
  fun_induction sextets bytes with
  | case1 => simp
  | case2 a =>
      have := a.toNat_lt
      simp only [List.forall_mem_cons]
      exact ⟨by omega, by omega, by simp⟩
  | case3 a b =>
      have := a.toNat_lt
      have := b.toNat_lt
      simp only [List.forall_mem_cons]
      exact ⟨by omega, by omega, by omega, by simp⟩
  | case4 a b c rest ih =>
      have := a.toNat_lt
      have := b.toNat_lt
      have := c.toNat_lt
      simp only [List.forall_mem_cons]
      exact ⟨by omega, by omega, by omega, by omega, ih⟩

theorem exists_of_mem_encode {bytes : List UInt8} {c : Char} (member : c ∈ encode bytes) :
    ∃ value < 64, symbol value = c := by
  rw [encode_eq_map] at member
  obtain ⟨value, place, written⟩ := List.mem_map.1 member
  exact ⟨value, sextets_lt bytes value place, written⟩

section Reading

variable {values : List Nat} (head place signs : Nat)

theorem symbolValue?_code {value : Nat} (small : value < 64) : symbolValue? (code value) = some value :=
  symbolValue?_symbol value small

theorem code_ne_padding {value : Nat} (small : value < 64) : code value ≠ padding := by
  intro same
  have found := symbolValue?_code small
  rw [same] at found
  cases found

theorem readSymbol_code {value : Nat} (small : value < 64) (offset : Nat) :
    readSymbol offset (code value) = .ok value := by
  rw [readSymbol, symbolValue?_code small]

theorem readLastSymbols_padding (room : 2 ≤ place ∨ signs = 0) (pad? : Option Nat) :
    readLastSymbols head place pad? (List.replicate signs padding) = .ok [] := by
  induction signs generalizing place pad? with
  | zero => rfl
  | succ signs ih =>
      have later : ¬ place < 2 := by omega
      simp only [List.replicate_succ, readLastSymbols, if_true, later, if_false]
      exact ih (place + 1) (.inl (by omega)) _

/-- The symbols of the last group, with padding behind them where there may be some. -/
theorem readLastSymbols_symbols (small : ∀ value ∈ values, value < 64)
    (room : 2 ≤ place + values.length ∨ signs = 0) :
    readLastSymbols head place none (values.map code ++ List.replicate signs padding) =
      .ok (values.map fun value => (code value, value)) := by
  induction values generalizing place with
  | nil => exact readLastSymbols_padding head place signs room none
  | cons value rest ih =>
      obtain ⟨first, others⟩ := List.forall_mem_cons.1 small
      rw [List.length_cons] at room
      have behind := ih (place + 1) others (by omega)
      rw [List.map_cons, List.cons_append, readLastSymbols, if_neg (code_ne_padding first), readSymbol_code first]
      simp only [bind, Except.bind, behind, pure, Except.pure, List.map_cons]

theorem decodeFrom_of_length_le {text : List Nat} (short : text.length ≤ 4) :
    decodeFrom head text = decodeLast head text := by
  match text, short with
  | [], _ => rfl
  | [_], _ => rfl
  | [_, _], _ => rfl
  | [_, _, _], _ => rfl
  | [_, _, _, _], _ => rfl

end Reading

theorem ofNat_eq_of_eq {number : Nat} (byte : UInt8) (same : number = byte.toNat) : UInt8.ofNat number = byte := by
  rw [same, UInt8.ofNat_toNat]

theorem joinFour_sextets (a b c : UInt8) :
    joinFour (a.toNat / 4) (a.toNat % 4 * 16 + b.toNat / 16) (b.toNat % 16 * 4 + c.toNat / 64) (c.toNat % 64) =
      [a, b, c] := by
  have := a.toNat_lt
  have := b.toNat_lt
  have := c.toNat_lt
  rw [joinFour, ofNat_eq_of_eq a (by omega), ofNat_eq_of_eq b (by omega), ofNat_eq_of_eq c (by omega)]

/-- The last group of a text: the symbols of at most three bytes, and padding. -/
theorem decodeLast_sextets {bytes : List UInt8} {signs : Nat} (last : bytes.length ≤ 3)
    (fill : signs ≤ paddingSigns bytes.length) (head : Nat) :
    decodeLast head ((sextets bytes).map code ++ List.replicate signs padding) = .ok bytes := by
  have small := sextets_lt bytes
  have read := readLastSymbols_symbols head 0 signs small
  match bytes, last with
  | [], _ =>
      rw [decodeLast, read (by simp [paddingSigns] at fill; omega)]
      rfl
  | [a], _ =>
      have unused : a.toNat % 4 * 16 % 16 = 0 := by omega
      have first : UInt8.ofNat (a.toNat / 4 * 4 + a.toNat % 4 * 16 / 16) = a := ofNat_eq_of_eq a (by omega)
      rw [decodeLast, read (.inl (by simp [sextets]))]
      simp only [sextets, List.map_cons, List.map_nil, bind, Except.bind, pure, Except.pure, unused, first, if_true]
  | [a, b], _ =>
      have high : b.toNat / 16 < 16 := Nat.div_lt_of_lt_mul b.toNat_lt
      have unused : b.toNat % 16 * 4 % 4 = 0 := by omega
      have first : UInt8.ofNat (a.toNat / 4 * 4 + (a.toNat % 4 * 16 + b.toNat / 16) / 16) = a :=
        ofNat_eq_of_eq a (by omega)
      have second : UInt8.ofNat ((a.toNat % 4 * 16 + b.toNat / 16) % 16 * 16 + b.toNat % 16 * 4 / 4) = b :=
        ofNat_eq_of_eq b (by omega)
      rw [decodeLast, read (.inl (by simp [sextets]))]
      simp only [sextets, List.map_cons, List.map_nil, bind, Except.bind, pure, Except.pure, unused, first, second,
        if_true]
  | [a, b, c], _ =>
      rw [decodeLast, read (.inl (by simp [sextets]))]
      exact congrArg Except.ok (joinFour_sextets a b c)

theorem length_sextets (bytes : List UInt8) : (sextets bytes).length = (4 * bytes.length + 2) / 3 := by
  fun_induction sextets bytes with
  | case1 => rfl
  | case2 => simp
  | case3 => simp
  | case4 a b c rest ih =>
      simp only [List.length_cons, ih]
      omega

theorem decodeFrom_last (bytes : List UInt8) {signs : Nat} (last : bytes.length ≤ 3)
    (fill : signs ≤ paddingSigns bytes.length) (head : Nat) :
    decodeFrom head ((sextets bytes).map code ++ List.replicate signs padding) = .ok bytes := by
  rw [decodeFrom_of_length_le, decodeLast_sextets last fill]
  rw [List.length_append, List.length_map, List.length_replicate, length_sextets]
  unfold paddingSigns at fill
  omega

/-- The symbols of some bytes are read as the bytes, with padding signs or without. -/
theorem decodeFrom_sextets {bytes : List UInt8} {signs : Nat} (fill : signs ≤ paddingSigns bytes.length)
    (head : Nat) : decodeFrom head ((sextets bytes).map code ++ List.replicate signs padding) = .ok bytes := by
  fun_induction sextets bytes generalizing head with
  | case1 => exact decodeFrom_last [] (by simp) fill head
  | case2 a => exact decodeFrom_last [a] (by simp) fill head
  | case3 a b => exact decodeFrom_last [a, b] (by simp) fill head
  | case4 a b c rest ih =>
      cases rest with
      | nil => exact decodeFrom_last [a, b, c] (by simp) fill head
      | cons d rest =>
          -- There are symbols behind the first group, so it is not the last one.
          obtain ⟨value, values, next⟩ : ∃ value values, sextets (d :: rest) = value :: values := by
            apply List.exists_cons_of_length_pos
            rw [length_sextets, List.length_cons]
            omega
          have others := ih (by simp only [paddingSigns, List.length_cons] at fill ⊢; omega) (head + 4)
          have small := sextets_lt (a :: b :: c :: d :: rest)
          simp only [sextets, List.forall_mem_cons] at small
          rw [next, List.map_cons, List.cons_append] at others
          simp only [next, List.map_cons, List.cons_append, decodeFrom, readSymbol_code small.1,
            readSymbol_code small.2.1, readSymbol_code small.2.2.1, readSymbol_code small.2.2.2.1, others, bind,
            Except.bind, pure, Except.pure, joinFour_sextets, List.cons_append, List.nil_append]

/-- A text of symbols and padding signs has no stray end. -/
theorem strayEnd?_eq_none {text : List Nat}
    (known : ∀ byte ∈ text, byte = padding ∨ (symbolValue? byte).isSome) : strayEnd? text = none := by
  unfold strayEnd?
  split
  · rw [Option.filter_eq_none_iff]
    intro byte last
    rcases known byte (List.mem_of_getLast? last) with sign | symbol
    · simp [sign]
    · simp [Option.isNone_iff_eq_none, Option.isSome_iff_ne_none.1 symbol]
  · rfl

theorem decode_sextets {bytes : List UInt8} {signs : Nat} (fill : signs ≤ paddingSigns bytes.length) :
    decode ((sextets bytes).map code ++ List.replicate signs padding) = .ok bytes := by
  have known : ∀ byte ∈ (sextets bytes).map code ++ List.replicate signs padding,
      byte = padding ∨ (symbolValue? byte).isSome := by
    intro byte member
    rcases List.mem_append.1 member with symbol | sign
    · obtain ⟨value, place, rfl⟩ := List.mem_map.1 symbol
      exact .inr (by rw [symbolValue?_code (sextets_lt bytes value place)]; rfl)
    · exact .inl (List.eq_of_mem_replicate sign)
  rw [decode, strayEnd?_eq_none known]
  exact decodeFrom_sextets fill 0

/-- A character of seven bits is one byte of a text. -/
theorem utf8_of_forall_lt {text : List Char} (small : ∀ c ∈ text, c.toNat < 128) :
    utf8 text = text.map Char.toNat := by
  induction text with
  | nil => rfl
  | cons c rest ih =>
      obtain ⟨first, others⟩ := List.forall_mem_cons.1 small
      have code : c.val.toNat = c.toNat := rfl
      have single : c.utf8Size = 1 := Char.utf8Size_eq_one_iff.2 (UInt32.le_iff_toNat_le.2 (Nat.le_of_lt_succ first))
      have byte : c.val.toUInt8.toNat = c.toNat := by
        rw [UInt32.toNat_toUInt8]
        omega
      rw [List.map_cons, ← ih others, ← byte, utf8, List.flatMap_cons, String.utf8EncodeChar_eq_singleton single]
      rfl

theorem code_lt : ∀ value < 64, code value < 128 := by
  decide

/-- The bytes of a text that is written: the codes of its symbols, and of the padding signs behind them. -/
theorem utf8_encode (bytes : List UInt8) (signs : Nat) :
    utf8 (encode bytes ++ List.replicate signs '=') = (sextets bytes).map code ++ List.replicate signs padding := by
  have small : ∀ c ∈ encode bytes ++ List.replicate signs '=', c.toNat < 128 := by
    intro c member
    rcases List.mem_append.1 member with written | sign
    · obtain ⟨value, small, rfl⟩ := exists_of_mem_encode written
      exact code_lt value small
    · rw [List.eq_of_mem_replicate sign]
      decide
  rw [utf8_of_forall_lt small, encode_eq_map, List.map_append, List.map_map, List.map_replicate]
  rfl

/-- What is written of some bytes is read as the bytes, with padding signs or without. -/
theorem decode_encode {bytes : List UInt8} {signs : Nat} (fill : signs ≤ paddingSigns bytes.length) :
    decode (utf8 (encode bytes ++ List.replicate signs '=')) = .ok bytes := by
  rw [utf8_encode]
  exact decode_sextets fill

end WordMachine.Base64Url
