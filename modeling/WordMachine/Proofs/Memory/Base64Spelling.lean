import WordMachine.Proofs.Memory.RoundTrip

/-! # Base64 spells an image in one way

Reading Base64 undoes writing it in both directions: a text that is read is what is written of its bytes, apart from
padding signs and the blanks around it.  `eq_code_of_symbolValue?` says so of one symbol, `decode_eq_ok_iff` of a whole
text, and `base64_spells_once` of memory images and any codec that keeps to its documentation, with the kinds of text
that are refused for it.
-/

namespace WordMachine

namespace Base64Url

theorem symbolValue?_ascii : ∀ byte < 128, ∀ value ∈ symbolValue? byte, value < 64 ∧ byte = code value := by
  decide

/-- A byte has the value of a symbol only if it is that symbol. -/
theorem eq_code_of_symbolValue? {byte value : Nat} (found : symbolValue? byte = some value) :
    value < 64 ∧ byte = code value := by
  rcases Nat.lt_or_ge byte 128 with ascii | high
  · exact symbolValue?_ascii byte ascii value found
  · simp only [symbolValue?, Char.reduceToNat] at found
    grind

theorem exists_of_readSymbol {offset byte value : Nat} (success : readSymbol offset byte = .ok value) :
    value < 64 ∧ byte = code value := by
  rw [readSymbol] at success
  split at success
  next found =>
    cases success
    exact eq_code_of_symbolValue? found
  next => cases success

/-- What the last group of a text consists of if its symbols are read: symbols, and padding signs where two symbols
    stand in front of them.  Behind a padding sign no symbol is read. -/
theorem exists_of_readLastSymbols {head place : Nat} {pad? : Option Nat} {group : List Nat} {pairs : List (Nat × Nat)}
    (success : readLastSymbols head place pad? group = .ok pairs) :
    ∃ values signs, (∀ value ∈ values, value < 64) ∧ pairs = values.map (fun value => (code value, value)) ∧
      group = values.map code ++ List.replicate signs padding ∧ (signs = 0 ∨ 2 ≤ place + values.length) ∧
      (pad?.isSome → values = []) := by
  fun_induction readLastSymbols head place pad? group generalizing pairs with
  | case1 place pad? =>
      cases success
      exact ⟨[], 0, by simp, rfl, rfl, .inl rfl, fun _ => rfl⟩
  | case2 place pad? rest early => cases success
  | case3 place pad? rest late ih =>
      obtain ⟨values, signs, small, same, split, -, padded⟩ := ih success
      have none : values = [] := padded (by cases pad? <;> rfl)
      subst none
      refine ⟨[], signs + 1, small, same, ?_, .inr (by omega), fun _ => rfl⟩
      rw [split]
      rfl
  | case4 place byte rest symbol pad => cases success
  | case5 place byte rest symbol ih =>
      obtain ⟨value, first, success⟩ := exists_of_bind_eq_ok success
      obtain ⟨others, behind, success⟩ := exists_of_bind_eq_ok success
      cases success
      obtain ⟨bound, rfl⟩ := exists_of_readSymbol first
      obtain ⟨values, signs, small, rfl, rfl, room, -⟩ := ih behind
      refine ⟨value :: values, signs, List.forall_mem_cons.2 ⟨bound, small⟩, rfl, rfl, ?_, by simp⟩
      rw [List.length_cons]
      omega

section Sextets

variable {a b c d : Nat}

/-! The three bytes that four values of six bits are put together to. -/

theorem toNat_firstByte (smallA : a < 64) (smallB : b < 64) :
    (UInt8.ofNat (a * 4 + b / 16)).toNat = a * 4 + b / 16 := by
  rw [UInt8.toNat_ofNat']
  omega

theorem toNat_secondByte (smallC : c < 64) :
    (UInt8.ofNat (b % 16 * 16 + c / 4)).toNat = b % 16 * 16 + c / 4 := by
  rw [UInt8.toNat_ofNat']
  omega

theorem toNat_thirdByte (smallD : d < 64) : (UInt8.ofNat (c % 4 * 64 + d)).toNat = c % 4 * 64 + d := by
  rw [UInt8.toNat_ofNat']
  omega

theorem sextets_joinFour (smallA : a < 64) (smallB : b < 64) (smallC : c < 64) (smallD : d < 64) (rest : List UInt8) :
    sextets (joinFour a b c d ++ rest) = a :: b :: c :: d :: sextets rest := by
  simp only [joinFour, List.cons_append, List.nil_append, sextets, toNat_firstByte smallA smallB,
    toNat_secondByte smallC, toNat_thirdByte smallD, List.cons.injEq, and_true]
  omega

theorem sextets_two (smallA : a < 64) (smallB : b < 64) (unused : b % 16 = 0) :
    sextets [UInt8.ofNat (a * 4 + b / 16)] = [a, b] := by
  simp only [sextets, toNat_firstByte smallA smallB, List.cons.injEq, and_true]
  omega

theorem sextets_three (smallA : a < 64) (smallB : b < 64) (smallC : c < 64) (unused : c % 4 = 0) :
    sextets [UInt8.ofNat (a * 4 + b / 16), UInt8.ofNat (b % 16 * 16 + c / 4)] = [a, b, c] := by
  simp only [sextets, toNat_firstByte smallA smallB, toNat_secondByte smallC, List.cons.injEq, and_true]
  omega

end Sextets

/-- The last group of a text is what is written of its bytes. -/
theorem exists_of_decodeLast {head : Nat} {group : List Nat} {bytes : List UInt8} (short : group.length ≤ 4)
    (success : decodeLast head group = .ok bytes) :
    ∃ signs ≤ paddingSigns bytes.length, group = (sextets bytes).map code ++ List.replicate signs padding := by
  obtain ⟨pairs, symbols, computed⟩ := exists_of_bind_eq_ok success
  clear success
  obtain ⟨values, signs, small, rfl, rfl, room, -⟩ := exists_of_readLastSymbols symbols
  clear symbols
  rw [List.length_append, List.length_map, List.length_replicate] at short
  match values, computed with
  | [], computed =>
      cases computed
      exact ⟨signs, by simp at room; omega, rfl⟩
  | [a], computed => cases computed
  | [a, b], computed =>
      simp only [List.map_cons, List.map_nil] at computed
      split at computed
      next unused =>
        cases computed
        simp only [List.forall_mem_cons] at small
        exact ⟨signs, by simp [paddingSigns] at short ⊢; omega, by rw [sextets_two small.1 small.2.1 unused]⟩
      next => cases computed
  | [a, b, c], computed =>
      simp only [List.map_cons, List.map_nil] at computed
      split at computed
      next unused =>
        cases computed
        simp only [List.forall_mem_cons] at small
        exact ⟨signs, by simp [paddingSigns] at short ⊢; omega,
          by rw [sextets_three small.1 small.2.1 small.2.2.1 unused]⟩
      next => cases computed
  | [a, b, c, d], computed =>
      cases computed
      simp only [List.forall_mem_cons] at small
      refine ⟨signs, by simp [joinFour, paddingSigns] at short ⊢; omega, ?_⟩
      rw [← List.append_nil (joinFour a b c d), sextets_joinFour small.1 small.2.1 small.2.2.1 small.2.2.2.1]
      rfl
  | a :: b :: c :: d :: e :: rest, _ =>
      simp only [List.length_cons] at short
      omega

/-- A text that is read is what is written of its bytes, up to padding. -/
theorem exists_of_decodeFrom {head : Nat} {text : List Nat} {bytes : List UInt8}
    (success : decodeFrom head text = .ok bytes) :
    ∃ signs ≤ paddingSigns bytes.length, text = (sextets bytes).map code ++ List.replicate signs padding := by
  induction head, text using decodeFrom.induct generalizing bytes with
  | case1 head a b c d e rest ih =>
      rw [decodeFrom] at success
      obtain ⟨first, readFirst, success⟩ := exists_of_bind_eq_ok success
      obtain ⟨second, readSecond, success⟩ := exists_of_bind_eq_ok success
      obtain ⟨third, readThird, success⟩ := exists_of_bind_eq_ok success
      obtain ⟨fourth, readFourth, success⟩ := exists_of_bind_eq_ok success
      obtain ⟨others, behind, success⟩ := exists_of_bind_eq_ok success
      cases success
      obtain ⟨smallFirst, rfl⟩ := exists_of_readSymbol readFirst
      obtain ⟨smallSecond, rfl⟩ := exists_of_readSymbol readSecond
      obtain ⟨smallThird, rfl⟩ := exists_of_readSymbol readThird
      obtain ⟨smallFourth, rfl⟩ := exists_of_readSymbol readFourth
      obtain ⟨signs, fill, split⟩ := ih behind
      refine ⟨signs, ?_, ?_⟩
      · simp only [paddingSigns, joinFour, List.length_append, List.length_cons, List.length_nil] at fill ⊢
        omega
      · rw [sextets_joinFour smallFirst smallSecond smallThird smallFourth, split]
        rfl
  | case2 head group last =>
      have short : group.length ≤ 4 := by
        rcases group with _ | ⟨a, _ | ⟨b, _ | ⟨c, _ | ⟨d, _ | ⟨e, rest⟩⟩⟩⟩⟩
        case cons.cons.cons.cons.cons => exact (last a b c d e rest rfl).elim
        all_goals simp
      rw [decodeFrom_of_length_le head short] at success
      exact exists_of_decodeLast short success

theorem decode_eq_ok_iff {text : List Nat} {bytes : List UInt8} :
    decode text = .ok bytes ↔
      ∃ signs ≤ paddingSigns bytes.length, text = (sextets bytes).map code ++ List.replicate signs padding := by
  constructor
  · intro success
    rw [decode] at success
    split at success
    next => cases success
    next => exact exists_of_decodeFrom success
  · rintro ⟨signs, fill, rfl⟩
    exact decode_sextets fill

/-- Different texts are different bytes. -/
theorem utf8_injective : Function.Injective utf8 := by
  intro one other same
  have bytes : one.flatMap String.utf8EncodeChar = other.flatMap String.utf8EncodeChar := by
    apply List.map_injective_iff.2 (fun _ _ => UInt8.toNat_inj.1)
    simpa [utf8, List.map_flatMap] using same
  have encoded : one.utf8Encode = other.utf8Encode := congrArg List.toByteArray bytes
  apply String.ofList_inj.1
  apply String.toByteArray_inj.1
  rwa [String.toByteArray_ofList, String.toByteArray_ofList]

theorem decode_utf8_eq_ok_iff {text : List Char} {bytes : List UInt8} :
    decode (utf8 text) = .ok bytes ↔
      ∃ signs ≤ paddingSigns bytes.length, text = encode bytes ++ List.replicate signs '=' := by
  simp only [decode_eq_ok_iff, ← utf8_encode, utf8_injective.eq_iff]

section Symbols

theorem symbol_ne_sign : ∀ value < 64, symbol value ≠ '=' := by
  decide

theorem symbol_known : ∀ value < 64, (symbol value).isAlphanum ∨ symbol value = '-' ∨ symbol value = '_' := by
  decide

variable {values others : List Nat}

/-- The symbols of a text are found again behind which there is padding. -/
theorem filter_symbols (small : ∀ value ∈ values, value < 64) (signs : Nat) :
    (values.map symbol ++ List.replicate signs '=').filter (· ≠ '=') = values.map symbol := by
  have symbols : (values.map symbol).filter (· ≠ '=') = values.map symbol := by
    refine List.filter_eq_self.2 fun c member => ?_
    obtain ⟨value, place, rfl⟩ := List.mem_map.1 member
    exact decide_eq_true (symbol_ne_sign value (small value place))
  rw [List.filter_append, symbols, List.filter_replicate]
  simp

theorem eq_of_map_symbol (small : ∀ value ∈ values, value < 64) (smallOthers : ∀ value ∈ others, value < 64)
    (same : values.map symbol = others.map symbol) : values = others := by
  have read : ∀ numbers : List Nat, (∀ value ∈ numbers, value < 64) →
      (numbers.map symbol).map (fun c => symbolValue? c.toNat) = numbers.map some := by
    intro numbers bounds
    rw [List.map_map]
    exact List.map_congr_left fun value member => symbolValue?_symbol value (bounds value member)
  apply List.map_injective_iff.2 (Option.some_injective Nat)
  rw [← read values small, same, read others smallOthers]

/-- The bits of the last symbol that belong to no byte are zero. -/
theorem sextets_trailing (bytes : List UInt8) : ∀ last ∈ (sextets bytes).getLast?,
    ((sextets bytes).length % 4 = 2 → last % 16 = 0) ∧ ((sextets bytes).length % 4 = 3 → last % 4 = 0) := by
  fun_induction sextets bytes with
  | case1 => simp
  | case2 a => simp
  | case3 a b => simp
  | case4 a b c rest ih =>
      cases others : sextets rest with
      | nil => simp
      | cons value values =>
          intro last found
          rw [others] at ih
          have unused := ih last (by simpa only [List.getLast?_cons_cons] using found)
          simp only [List.length_cons] at unused ⊢
          omega

end Symbols

/-- What keeps some characters from being Base64. -/
inductive Flawed : List Char → Prop where
  /-- A character that is neither a symbol nor a padding sign, like a blank, `+` or `/`. -/
  | foreign {text : List Char} {c : Char} (member : c ∈ text)
      (unknown : ¬ (c.isAlphanum ∨ c = '-' ∨ c = '_' ∨ c = '=')) : Flawed text
  /-- A padding sign with something other than padding behind it. -/
  | inner {front back : List Char} {c : Char} (other : c ≠ '=') : Flawed (front ++ '=' :: c :: back)
  /-- A last symbol with bits that belong to no byte. -/
  | trailing {front : List Nat} {last signs : Nat} (small : ∀ value ∈ front ++ [last], value < 64)
      (bits : (front.length % 4 = 1 ∧ last % 16 ≠ 0) ∨ (front.length % 4 = 2 ∧ last % 4 ≠ 0)) :
      Flawed ((front ++ [last]).map symbol ++ List.replicate signs '=')

/-- Behind the first padding sign there is only padding. -/
theorem eq_sign_of_split {symbols front back : List Char} {c : Char} {signs : Nat} (solid : '=' ∉ symbols)
    (split : symbols ++ List.replicate signs '=' = front ++ '=' :: c :: back) : c = '=' := by
  have sign : (symbols ++ List.replicate signs '=')[front.length]? = some '=' := by
    rw [split, List.getElem?_append_right (Nat.le_refl _), Nat.sub_self]
    rfl
  have next : (symbols ++ List.replicate signs '=')[front.length + 1]? = some c := by
    rw [split, List.getElem?_append_right (Nat.le_succ _), show front.length.succ - front.length = 1 by omega]
    rfl
  rcases Nat.lt_or_ge front.length symbols.length with within | behind
  · rw [List.getElem?_append_left within] at sign
    exact absurd (List.mem_of_getElem? sign) solid
  · rw [List.getElem?_append_right (Nat.le_succ_of_le behind)] at next
    exact List.eq_of_mem_replicate (List.mem_of_getElem? next)

/-- What is written of some bytes has no flaw, and neither has what has padding signs behind it. -/
theorem not_flawed_encode (bytes : List UInt8) (signs : Nat) :
    ¬ Flawed (encode bytes ++ List.replicate signs '=') := by
  have small := sextets_lt bytes
  generalize same : encode bytes ++ List.replicate signs '=' = text
  rintro (⟨member, unknown⟩ | ⟨other⟩ | @⟨front, last, count, bounds, bits⟩)
  · rw [← same] at member
    rcases List.mem_append.1 member with written | sign
    · obtain ⟨value, bound, rfl⟩ := exists_of_mem_encode written
      exact unknown ((symbol_known value bound).imp_right fun known => known.imp_right .inl)
    · exact unknown (.inr (.inr (.inr (List.eq_of_mem_replicate sign))))
  · refine other (eq_sign_of_split ?_ same)
    intro sign
    obtain ⟨value, bound, written⟩ := exists_of_mem_encode sign
    exact symbol_ne_sign value bound written
  · rw [encode_eq_map] at same
    have symbols := congrArg (List.filter (· ≠ '=')) same
    rw [filter_symbols small, filter_symbols bounds] at symbols
    have values := eq_of_map_symbol small bounds symbols
    have unused := sextets_trailing bytes
    rw [values, List.getLast?_concat, List.length_append, List.length_singleton] at unused
    have bytesEnd := unused last rfl
    omega

end Base64Url

namespace Memory

/-- A text with some characters between blanks and before padding signs. -/
def Wraps (text : String) (core : List Char) : Prop :=
  ∃ before signs after, (∀ c ∈ before, Text.isBlank c) ∧ (∀ c ∈ after, Text.isBlank c) ∧
    text.toList = before ++ (core ++ List.replicate signs '=') ++ after

variable {codec : Base64Url.Codec}

theorem ofText_base64Url_eq_ok_iff (documented : codec.Documented) (text : String) (memory : Memory) :
    ofText codec .base64Url text = .ok memory ↔ ∃ signs ≤ Base64Url.paddingSigns memory.size,
      Text.trim text.toList = (memory.toText codec .base64Url).toList ++ List.replicate signs '=' := by
  rw [toText, String.toList_ofList, size, ← Array.length_toList, documented.encode_eq,
    ← Base64Url.decode_utf8_eq_ok_iff, ← documented.decode_eq, ofText]
  constructor
  · intro success
    obtain ⟨bytes, decoded, same⟩ := exists_of_bind_eq_ok success
    cases same
    exact of_mapError_eq_ok decoded
  · intro decoded
    rw [decoded]
    rfl

/-- A Base64 text is read if what stands between its outer blanks is what is written of an image, with no more padding
    signs behind it than fill the last group: none for a multiple of three bytes, at most one for two bytes more and at
    most two for one byte more.  So two texts that are read as the same image differ in outer blanks and in padding
    only, and a text with a foreign character, with padding inside or with bits that belong to no byte is refused. -/
theorem base64_spells_once (documented : codec.Documented) :
    (∀ text memory, ofText codec .base64Url text = .ok memory ↔ ∃ signs ≤ Base64Url.paddingSigns memory.size,
        Text.trim text.toList = (memory.toText codec .base64Url).toList ++ List.replicate signs '=') ∧
      (∀ one other memory, ofText codec .base64Url one = .ok memory → ofText codec .base64Url other = .ok memory →
        ∃ core, Wraps one core ∧ Wraps other core) ∧
      ∀ text, Base64Url.Flawed (Text.trim text.toList) → ∀ memory, ofText codec .base64Url text ≠ .ok memory := by
  have spelled := ofText_base64Url_eq_ok_iff documented
  have wraps : ∀ text memory, ofText codec .base64Url text = .ok memory →
      Wraps text (memory.toText codec .base64Url).toList := by
    intro text memory success
    obtain ⟨signs, -, trimmed⟩ := (spelled text memory).1 success
    obtain ⟨before, after, blankBefore, blankAfter, whole⟩ := Text.exists_trim_between text.toList
    exact ⟨before, signs, after, blankBefore, blankAfter, trimmed ▸ whole⟩
  refine ⟨spelled, fun one other memory first second => ?_, fun text flawed memory success => ?_⟩
  · exact ⟨_, wraps one memory first, wraps other memory second⟩
  · obtain ⟨signs, -, trimmed⟩ := (spelled text memory).1 success
    rw [trimmed, toText, String.toList_ofList, documented.encode_eq] at flawed
    exact Base64Url.not_flawed_encode memory.bytes.toList signs flawed

/-- The image of two bytes is read with its one padding sign between blanks, and not with other unused bits. -/
theorem base64_spells_once_padded :
    ofText Base64Url.codec .base64Url " SP8=\n" = .ok noisyImage ∧
      ∀ memory, ofText Base64Url.codec .base64Url "SP9=" ≠ .ok memory := by
  obtain ⟨accepted, -, refused⟩ := base64_spells_once Base64Url.documented_codec
  have flawed : Base64Url.Flawed (Text.trim "SP9=".toList) :=
    @Base64Url.Flawed.trailing [18, 15] 61 1 (by decide) (by decide)
  exact ⟨(accepted _ _).2 ⟨1, by decide, by decide⟩, refused _ flawed⟩

end Memory

end WordMachine
