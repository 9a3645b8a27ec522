import WordMachine.Proofs.Parsing.Patterns
import WordMachine.Proofs.Text.Case

/-! # Matches by byte offsets

A text in UTF-8 is cut at offsets that count bytes, and it cannot be cut inside a character.  Here a match is an
offset, which some patterns know from their own spelling and others find by looking through the text.  Wherever a
pattern matches, its offset lies between two characters, and the text is cut where the match of as many characters
ends.
-/

namespace WordMachine.Parsing

variable {input front back : List Char} {offset : Nat}

theorem utf8Length_cons (c : Char) (text : List Char) : utf8Length (c :: text) = c.utf8Size + utf8Length text := by
  have single : utf8Length [c] = c.utf8Size := Nat.zero_add _
  rw [← List.singleton_append, utf8Length_append, single]

theorem utf8Length_eq_zero_iff {text : List Char} : utf8Length text = 0 ↔ text = [] := by
  cases text with
  | nil => simp
  | cons c text =>
      have positive := c.utf8Size_pos
      simp only [utf8Length_cons, reduceCtorEq, iff_false]
      omega

theorem utf8Length_eq (text : List Char) : utf8Length text = String.utf8Len text := by
  induction text with
  | nil => rfl
  | cons c text ih => rw [utf8Length_cons, String.utf8Len_cons, ih, Nat.add_comm]

/-- The parts of a text in front of an offset in bytes and behind it.  There are none where the offset lies inside
    a character or behind the end of the text. -/
def cut? : Nat → List Char → Option (List Char × List Char)
  | 0, input => some ([], input)
  | _ + 1, [] => none
  | offset + 1, c :: input =>
      if c.utf8Size ≤ offset + 1 then
        (cut? (offset + 1 - c.utf8Size) input).map fun (front, back) => (c :: front, back)
      else none

theorem cut?_append (front back : List Char) : cut? (utf8Length front) (front ++ back) = some (front, back) := by
  induction front with
  | nil => simp [cut?]
  | cons c front ih =>
      have positive := c.utf8Size_pos
      obtain ⟨before, split⟩ : ∃ before, utf8Length (c :: front) = before + 1 :=
        Nat.exists_eq_add_one.2 (by rw [utf8Length_cons]; omega)
      have length := split.symm.trans (utf8Length_cons c front)
      rw [split, List.cons_append, cut?, if_pos (by omega), length, Nat.add_sub_cancel_left, ih]
      rfl

/-- A text is cut into two parts exactly if the offset is the length of the first one. -/
theorem cut?_eq_some_iff :
    cut? offset input = some (front, back) ↔ input = front ++ back ∧ utf8Length front = offset := by
  constructor
  · intro cut
    fun_induction cut? offset input generalizing front with
    | case1 input =>
        cases cut
        exact ⟨rfl, rfl⟩
    | case2 => cases cut
    | case3 offset c input inside ih =>
        obtain ⟨⟨others, rest⟩, found, same⟩ := Option.map_eq_some_iff.1 cut
        cases same
        obtain ⟨rfl, length⟩ := ih found
        exact ⟨rfl, by rw [utf8Length_cons]; omega⟩
    | case4 => cases cut
  · rintro ⟨rfl, rfl⟩
    exact cut?_append front back

theorem cut?_take (count : Nat) (input : List Char) :
    cut? (utf8Length (input.take count)) input = some (input.take count, input.drop count) := by
  have cut := cut?_append (input.take count) (input.drop count)
  rwa [List.take_append_drop] at cut

/-- A text can be cut exactly where its UTF-8 form has a boundary between characters. -/
theorem exists_cut?_iff :
    (∃ parts, cut? offset input = some parts) ↔ String.Pos.Raw.IsValid (String.ofList input) ⟨offset⟩ := by
  rw [String.Pos.Raw.isValid_ofList]
  constructor
  · rintro ⟨⟨front, back⟩, cut⟩
    obtain ⟨rfl, rfl⟩ := cut?_eq_some_iff.1 cut
    refine ⟨front.length, ?_⟩
    rw [List.take_left, String.utf8ByteSize_ofList, utf8Length_eq]
  · rintro ⟨count, length⟩
    rw [String.utf8ByteSize_ofList, ← utf8Length_eq] at length
    exact ⟨_, length ▸ cut?_take count input⟩

/-- An end of a text starts at the offset that is the difference of their lengths. -/
theorem cut?_of_suffix (suffix : back <:+ input) :
    utf8Length back ≤ utf8Length input ∧
      ∃ front, cut? (utf8Length input - utf8Length back) input = some (front, back) := by
  obtain ⟨front, rfl⟩ := suffix
  rw [utf8Length_append, Nat.add_sub_cancel]
  exact ⟨Nat.le_add_left _ _, front, cut?_append front back⟩

/-- The offset of the first character of a kind. -/
def offsetOf? (kind : Char → Bool) : List Char → Option Nat
  | [] => none
  | c :: input => if kind c then some 0 else (offsetOf? kind input).map (c.utf8Size + ·)

/-- The first character of a kind stands behind all that are not of that kind. -/
theorem offsetOf?_getD (kind : Char → Bool) (input : List Char) :
    (offsetOf? kind input).getD (utf8Length input) = utf8Length (input.takeWhile fun c => !kind c) := by
  induction input with
  | nil => rfl
  | cons c input ih =>
      rw [offsetOf?, List.takeWhile_cons]
      cases found : kind c with
      | true => rfl
      | false =>
          rw [if_neg Bool.false_ne_true, if_pos (show (!false) = true from rfl), utf8Length_cons, utf8Length_cons, ← ih]
          cases offsetOf? kind input <;> rfl

theorem utf8Length_mono {few many : Nat} (fewer : few ≤ many) (input : List Char) :
    utf8Length (input.take few) ≤ utf8Length (input.take many) := by
  obtain ⟨more, split⟩ := List.take_prefix_take_left fewer (l := input)
  rw [← split, utf8Length_append]
  exact Nat.le_add_right _ _

theorem utf8Length_map_toLower (text : List Char) : utf8Length (text.map Char.toLower) = utf8Length text := by
  induction text with
  | nil => rfl
  | cons c text ih =>
      rw [List.map_cons, utf8Length_cons, utf8Length_cons, ih,
        Text.utf8Size_eq_of_toLower_eq (Char.toLower_toLower_eq_toLower c)]

/-- The largest of some numbers stays the largest where a change keeps their order. -/
theorem max?_map {change : Nat → Nat} (keeps : Monotone change) (numbers : List Nat) :
    (numbers.map change).max? = numbers.max?.map change := by
  cases largest : numbers.max? with
  | none =>
      rw [List.max?_eq_none_iff.1 largest]
      rfl
  | some most =>
      obtain ⟨member, bound⟩ := List.max?_eq_some_iff.1 largest
      refine List.max?_eq_some_iff.2 ⟨List.mem_map_of_mem member, ?_⟩
      intro changed listed
      obtain ⟨number, found, rfl⟩ := List.mem_map.1 listed
      exact keeps (bound number found)

namespace Pattern

/-- The offset behind a word in any case, if the text can be cut there and the word stands in front. -/
def wordOffset? (spelling input : List Char) : Option Nat :=
  match cut? (utf8Length spelling) input with
  | none => none
  | some (word, _) => if word.map Char.toLower = spelling.map Char.toLower then some (utf8Length spelling) else none

/-- The offset at which a match of a pattern at the start of a text ends. -/
def matchOffset? (pattern : Pattern) (input : List Char) : Option Nat :=
  match pattern with
  | text expected => if expected.isPrefixOf input then some (utf8Length expected) else none
  | char expected => if input.head? = some expected then some expected.utf8Size else none
  | noCase spelling => wordOffset? spelling input
  | anyNoCase spellings => (spellings.filterMap (wordOffset? · input)).max?
  | takeWhile1 member =>
      let offset := (offsetOf? (fun c => !member c) input).getD (utf8Length input)
      if offset = 0 then none else some offset
  | lineComment marker =>
      if input.head? = some marker then some ((offsetOf? (· = '\n') input).getD (utf8Length input)) else none

theorem wordOffset?_eq (spelling input : List Char) :
    wordOffset? spelling input = (noCaseLength? spelling input).map fun count => utf8Length (input.take count) := by
  have lengths : ∀ {word : List Char}, word.map Char.toLower = spelling.map Char.toLower →
      utf8Length word = utf8Length spelling := by
    intro word letters
    rw [← utf8Length_map_toLower word, letters, utf8Length_map_toLower]
  rw [noCaseLength?, wordOffset?]
  cases starts : startsNoCase spelling input with
  | true =>
      obtain ⟨split, letters⟩ := startsNoCase_iff.1 starts
      rw [cut?_eq_some_iff.2 ⟨split, lengths letters⟩]
      simp only [if_pos letters, if_true, Option.map_some, lengths letters]
  | false =>
      cases cut : cut? (utf8Length spelling) input with
      | none => rfl
      | some parts =>
          obtain ⟨word, rest⟩ := parts
          refine if_neg fun letters => ?_
          have reads : Spelled spelling input word rest := ⟨(cut?_eq_some_iff.1 cut).1, letters⟩
          rw [reads.starts] at starts
          cases starts

/-- The offset of a match is the length of as many characters as are matched. -/
theorem matchOffset?_eq (pattern : Pattern) (input : List Char) :
    pattern.matchOffset? input = (pattern.matchLength? input).map fun count => utf8Length (input.take count) := by
  cases pattern with
  | text expected =>
      rw [matchOffset?, matchLength?]
      split
      next starts =>
        obtain ⟨rest, rfl⟩ := List.isPrefixOf_iff_prefix.1 starts
        simp
      next => rfl
  | char expected =>
      rw [matchOffset?, matchLength?]
      split
      next starts =>
        obtain ⟨rest, rfl⟩ := List.head?_eq_some_iff.1 starts
        simp [utf8Length_cons]
      next => rfl
  | noCase spelling => exact wordOffset?_eq spelling input
  | anyNoCase spellings =>
      have offsets : (wordOffset? · input) = fun spelling =>
          (noCaseLength? spelling input).map fun count => utf8Length (input.take count) :=
        funext fun spelling => wordOffset?_eq spelling input
      rw [matchOffset?, offsets, matchLength?, ← max?_map fun _ _ fewer => utf8Length_mono fewer input]
      rw [List.map_filterMap]
  | takeWhile1 member =>
      have run := (Parser.cut_takeWhile member input).1
      have offset : (offsetOf? (fun c => !member c) input).getD (utf8Length input) =
          utf8Length (input.takeWhile member) := by simp [offsetOf?_getD]
      simp only [matchOffset?, matchLength?, offset, utf8Length_eq_zero_iff, List.length_eq_zero_iff]
      split
      next => rfl
      next => rw [Option.map_some, run]
  | lineComment marker =>
      have line := (Parser.cut_takeWhile (· ≠ '\n') input).1
      have offset : (offsetOf? (· = '\n') input).getD (utf8Length input) =
          utf8Length (input.takeWhile (· ≠ '\n')) := by simp [offsetOf?_getD]
      simp only [matchOffset?, matchLength?, offset]
      split
      next => rw [Option.map_some, line]
      next => rfl

end Pattern

/-- A match that cuts the text at its offset, if the text can be cut there. -/
def matchedAt? (pattern : Pattern) (input : List Char) : Option (Result (List Char)) :=
  match pattern.matchOffset? input with
  | none => some (.failed input)
  | some offset => (cut? offset input).map fun (front, back) => .parsed front back

/-- A match never cuts a text inside a character, and what it leaves does not depend on how characters are
    counted. -/
theorem matchedAt?_eq (pattern : Pattern) (input : List Char) :
    matchedAt? pattern input = some (Parser.matched pattern input) := by
  rw [matchedAt?, Parser.matched, pattern.matchOffset?_eq]
  cases pattern.matchLength? input with
  | none => rfl
  | some count =>
      simp only [Option.map_some, cut?_take]

end WordMachine.Parsing
