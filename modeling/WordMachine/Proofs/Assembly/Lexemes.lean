import Mathlib
import WordMachine.Proofs.Assembly.Syntax
import WordMachine.Proofs.Parsing.MaximalMunch
import WordMachine.Proofs.Text.Case

/-! # Blanks, numbers, names and words

The parsers of the smallest parts of assembly text succeed exactly where the syntax has a derivation, with the same
value and the same rest.  Blanks are read as far as they go, and of several words the longest one is read: a word
that a gap follows is read as a whole, since no word has a blank in it.
-/

namespace WordMachine.Assembly.Syntax

open Parsing Parser Grammar

section Characters

variable {c : Char}

theorem solid_of_range (low : 0x21 ≤ c.toNat) (high : c.toNat ≤ 0x7E) (plain : c ≠ ';') : Solid c where
  visible := by
    simp [Text.isBlank, Text.blankRanges]
    omega
  plain := plain

/-- A capital does not start a blank either. -/
theorem solid_of_toLower (solid : Solid c.toLower) : Solid c := by
  cases upper : c.isUpper with
  | true =>
      obtain ⟨low, high⟩ := Text.toNat_of_isUpper upper
      refine solid_of_range (by omega) (by omega) ?_
      rintro rfl
      revert low
      decide
  | false => rwa [Char.toLower_eq_of_not_isUpper (Bool.eq_false_iff.1 upper)] at solid

theorem solid_of_isAlpha (alpha : c.isAlpha = true) : Solid c := by
  have range := Text.toNat_of_isAlpha alpha
  refine solid_of_range (by omega) (by omega) ?_
  rintro rfl
  revert alpha
  decide

theorem solid_of_isDigit (digit : c.isDigit = true) : Solid c := by
  have range := Char.isDigit_iff_toNat.1 digit
  refine solid_of_range (Nat.le_trans (by decide) range.1) (Nat.le_trans range.2 (by decide)) ?_
  rintro rfl
  revert digit
  decide

theorem solid_of_isWord (word : isWord c = true) : Solid c := by
  simp only [isWord, Char.isAlphanum, Bool.or_eq_true, decide_eq_true_eq] at word
  obtain (alpha | digit) | rfl := word
  · exact solid_of_isAlpha alpha
  · exact solid_of_isDigit digit
  · decide

end Characters

section Blanks

variable {input rest : List Char}

theorem gap_of_run {run : List Char} (nonempty : run ≠ []) (blank : ∀ c ∈ run, Text.isBlank c = true) :
    Gap (run ++ rest) rest := by
  induction run with
  | nil => exact absurd rfl nonempty
  | cons c run ih =>
      have first : Blank (c :: (run ++ rest)) (run ++ rest) := .space (blank c List.mem_cons_self)
      cases run with
      | nil => exact .single first
      | cons d run =>
          exact .head first (ih (List.cons_ne_nil _ _) fun e member => blank e (List.mem_cons_of_mem _ member))

/-- What is read of blanks at a time: all blank characters, or a comment. -/
def blankPiece : Parser (List Char) := either [matched (.takeWhile1 Text.isBlank), matched (.lineComment ';')]

theorem blankPiece_eq_parsed_iff {value : List Char} :
    blankPiece input = .parsed value rest ↔ Run Text.isBlank input value rest ∨
      (Rejects (matched (.takeWhile1 Text.isBlank)) input ∧ Line ';' input value rest) := by
  simp [blankPiece, either_cons_eq_parsed_iff, matched_takeWhile1_eq_parsed_iff,
    matched_lineComment_eq_parsed_iff (show ';' ≠ '\n' by decide)]

theorem gap_of_blankPiece {value : List Char} (parsed : blankPiece input = .parsed value rest) : Gap input rest := by
  rcases blankPiece_eq_parsed_iff.1 parsed with run | ⟨-, line⟩
  · rw [run.split]
    exact gap_of_run run.nonempty run.inside
  · exact .single (.comment line)

theorem shortens_blankPiece : Shortens blankPiece := by
  have blanks : Shortens (matched (.takeWhile1 Text.isBlank)) := shortens_matched trivial
  have comment : Shortens (matched (.lineComment ';')) := shortens_matched (show ';' ≠ '\n' by decide)
  exact shortens_either (List.forall_mem_cons.2 ⟨blanks, List.forall_mem_singleton.2 comment⟩)

theorem rejects_blankPiece_iff : Rejects blankPiece input ↔ Stops input := by
  constructor
  · intro rejects rest blank
    have run : Rejects (matched (.takeWhile1 Text.isBlank)) input := by
      intro value rest parsed
      exact rejects _ _ (blankPiece_eq_parsed_iff.2 (.inl (matched_takeWhile1_eq_parsed_iff.1 parsed)))
    cases blank with
    | comment line => exact rejects _ _ (blankPiece_eq_parsed_iff.2 (.inr ⟨run, line⟩))
    | space blank =>
        obtain ⟨value, behind, found⟩ := exists_run blank _
        exact run _ _ (matched_takeWhile1_eq_parsed_iff.2 found)
  · intro stops value rest parsed
    obtain ⟨mid, blank, -⟩ := Relation.TransGen.head'_iff.1 (gap_of_blankPiece parsed)
    exact stops mid blank

theorem iterates_blankPiece {values : List (List Char)} (iterates : Iterates blankPiece input values rest) :
    Blanks input rest ∧ Stops rest := by
  induction iterates with
  | stop rejects => exact ⟨.refl, rejects_blankPiece_iff.1 rejects⟩
  | step parsed _ ih => exact ⟨(gap_of_blankPiece parsed).to_reflTransGen.trans ih.1, ih.2⟩

/-- All blanks are read, if there are any. -/
theorem ignored_eq_parsed_iff {value : Unit} : ignored input = .parsed value rest ↔ Gap input rest ∧ Stops rest := by
  have defined : ignored = (many blankPiece).mapValue fun _ => () := rfl
  rw [defined, mapValue_eq_parsed_iff]
  constructor
  · rintro ⟨values, parsed, -⟩
    obtain ⟨nonempty, iterates⟩ := (many_eq_parsed_iff shortens_blankPiece).1 parsed
    cases iterates with
    | stop _ => exact absurd rfl nonempty
    | step first others =>
        obtain ⟨blanks, stops⟩ := iterates_blankPiece others
        exact ⟨(gap_of_blankPiece first).trans_left blanks, stops⟩
  · rintro ⟨gap, stops⟩
    obtain ⟨values, behind, iterates⟩ : ∃ values behind, Iterates blankPiece input values behind :=
      ⟨_, _, iterates_repeated shortens_blankPiece input⟩
    obtain ⟨blanks, ends⟩ := iterates_blankPiece iterates
    obtain rfl := blanks.unique gap.to_reflTransGen ends stops
    refine ⟨values, (many_eq_parsed_iff shortens_blankPiece).2 ⟨?_, iterates⟩, rfl⟩
    rintro rfl
    cases iterates with
    | stop rejects =>
        obtain ⟨mid, blank, -⟩ := Relation.TransGen.head'_iff.1 gap
        exact rejects_blankPiece_iff.1 rejects mid blank

theorem rejects_ignored_iff : Rejects ignored input ↔ Stops input := by
  constructor
  · intro rejects rest blank
    obtain ⟨blanks, stops⟩ := iterates_blankPiece (iterates_repeated shortens_blankPiece input)
    rcases blanks.cases_head with same | ⟨mid, first, others⟩
    · rw [← same] at stops
      exact stops rest blank
    · exact rejects () _ (ignored_eq_parsed_iff.2 ⟨.head' first others, stops⟩)
  · intro stops value rest parsed
    obtain ⟨mid, blank, -⟩ := Relation.TransGen.head'_iff.1 (ignored_eq_parsed_iff.1 parsed).1
    exact stops mid blank

theorem optional_ignored_eq_parsed_iff :
    (∃ value, optional ignored input = .parsed value rest) ↔ Blanks input rest ∧ Stops rest := by
  constructor
  · rintro ⟨value, parsed⟩
    rcases optional_eq_parsed_iff.1 parsed with ⟨inner, -, parsed⟩ | ⟨-, rfl, rejects⟩
    · obtain ⟨gap, stops⟩ := ignored_eq_parsed_iff.1 parsed
      exact ⟨gap.to_reflTransGen, stops⟩
    · exact ⟨.refl, rejects_ignored_iff.1 rejects⟩
  · rintro ⟨blanks, stops⟩
    rcases blanks.cases_head with rfl | ⟨mid, first, others⟩
    · exact ⟨none, optional_eq_parsed_iff.2 (.inr ⟨rfl, rfl, rejects_ignored_iff.2 stops⟩)⟩
    · exact ⟨some (), optional_eq_parsed_iff.2 (.inl ⟨(), rfl, ignored_eq_parsed_iff.2 ⟨.head' first others, stops⟩⟩)⟩

end Blanks

section Terminals

variable {input rest : List Char}

theorem digitValue?_of_isDigit {c : Char} (digit : c.isDigit = true) :
    Radix.decimal.digitValue? c = some (c.toNat - '0'.toNat) := by
  have range := Char.isDigit_iff_toNat.1 digit
  have low : '0' ≤ c := range.1
  have high : c ≤ '9' := range.2
  have small : c.toNat - '0'.toNat < Radix.decimal.base := by
    have : '9'.toNat - '0'.toNat < Radix.decimal.base := by decide
    omega
  simp only [Radix.digitValue?, Numeral.digitValue?, if_pos (And.intro low high), Option.filter]
  exact if_pos (decide_eq_true small)

theorem valueOf_eq_number {digits : List Char} (inside : ∀ c ∈ digits, c.isDigit = true) :
    Radix.decimal.valueOf digits = number digits := by
  have values : digits.filterMap Radix.decimal.digitValue? = digits.map fun c => c.toNat - '0'.toNat := by
    induction digits with
    | nil => rfl
    | cons c digits ih =>
        rw [List.filterMap_cons, digitValue?_of_isDigit (inside c List.mem_cons_self),
          ih fun d member => inside d (List.mem_cons_of_mem _ member)]
        rfl
  rw [Radix.valueOf, values, Numeral.value, List.foldl_map]
  rfl

theorem literal_eq_parsed_iff {value : Nat} : literal input = .parsed value rest ↔ Literal input value rest := by
  constructor
  · intro parsed
    unfold literal at parsed
    split at parsed
    · cases parsed
    next digits behind read =>
    have run := matched_takeWhile1_eq_parsed_iff.1 read
    simp only [valueOf_eq_number run.inside] at parsed
    split at parsed
    next bound =>
      cases parsed
      exact .mk run bound
    next => cases parsed
  · rintro ⟨run, bound⟩
    have small : number _ < literalBound := bound
    simp only [literal, matched_takeWhile1_eq_parsed_iff.2 run, valueOf_eq_number run.inside, if_pos small]

theorem label_eq_parsed_iff {name : String} : label input = .parsed name rest ↔ Label input name rest := by
  rw [label, mapValue_eq_parsed_iff]
  constructor
  · rintro ⟨letters, parsed, rfl⟩
    obtain ⟨_, mid, marker, run⟩ := thenRead_eq_parsed_iff.1 parsed
    obtain ⟨rfl, -⟩ := matched_char_eq_parsed_iff.1 marker
    exact .mk (matched_takeWhile1_eq_parsed_iff.1 run)
  · rintro ⟨run⟩
    exact ⟨_, thenRead_eq_parsed_iff.2 ⟨_, _, matched_char_eq_parsed_iff.2 ⟨rfl, rfl⟩,
      matched_takeWhile1_eq_parsed_iff.2 run⟩, rfl⟩

theorem name_map_toLower (register : Register) :
    register.name.toList.map Char.toLower = (registerSpelling register).toList.map Char.toLower := by
  cases register <;> decide

theorem spelled_name_iff {register : Register} {word : List Char} :
    Spelled register.name.toList input word rest ↔ Spelled (registerSpelling register).toList input word rest :=
  ⟨fun ⟨split, letters⟩ => ⟨split, letters.trans (name_map_toLower register)⟩,
    fun ⟨split, letters⟩ => ⟨split, letters.trans (name_map_toLower register).symm⟩⟩

theorem matchedAs_name_eq_parsed_iff {α : Type} {register : Register} {fixed value : α} :
    matchedAs (.noCase register.name.toList) fixed input = .parsed value rest ↔
      RegisterName input register rest ∧ fixed = value := by
  rw [matchedAs_eq_parsed_iff]
  constructor
  · rintro ⟨⟨word, parsed⟩, rfl⟩
    exact ⟨.mk (spelled_name_iff.1 (matched_noCase_eq_parsed_iff.1 parsed)), rfl⟩
  · rintro ⟨⟨spelled⟩, rfl⟩
    exact ⟨⟨_, matched_noCase_eq_parsed_iff.2 (spelled_name_iff.2 spelled)⟩, rfl⟩

theorem length_registerSpelling (register : Register) : (registerSpelling register).toList.length = 2 := by
  cases register <;> rfl

theorem registerSpelling_injective {first second : Register}
    (letters : (registerSpelling first).toList.map Char.toLower = (registerSpelling second).toList.map Char.toLower) :
    first = second := by
  revert letters
  cases first <;> cases second <;> decide

/-- A text starts with the name of one register at most. -/
theorem RegisterName.unique {first second : Register} {behind : List Char} (one : RegisterName input first rest)
    (two : RegisterName input second behind) : first = second := by
  obtain ⟨one⟩ := one
  obtain ⟨two⟩ := two
  have words := one.eq_take.1.symm.trans
    ((length_registerSpelling first).trans (length_registerSpelling second).symm ▸ two.eq_take.1)
  exact registerSpelling_injective (one.letters.symm.trans (words ▸ two.letters))

theorem register_eq_parsed_iff {name : Register} :
    register input = .parsed name rest ↔ RegisterName input name rest := by
  constructor
  · intro parsed
    obtain ⟨parser, member, parsed⟩ := exists_of_either_eq_parsed parsed
    obtain ⟨other, -, rfl⟩ := List.mem_map.1 member
    obtain ⟨named, rfl⟩ := matchedAs_name_eq_parsed_iff.1 parsed
    exact named
  · intro named
    refine either_map_eq_parsed (by cases name <;> simp [Register.all]) (matchedAs_name_eq_parsed_iff.2 ⟨named, rfl⟩) ?_
    intro other _ accepts
    apply Classical.byContradiction
    intro different
    apply accepts
    intro value behind parsed
    exact different ((matchedAs_name_eq_parsed_iff.1 parsed).1.unique named)

theorem RegisterName.head {name : Register} (named : RegisterName input name rest) :
    ∃ c others, input = c :: others ∧ c.toLower = 'r' := by
  obtain ⟨spelled⟩ := named
  exact spelled.head (by cases name <;> rfl)

theorem Literal.head {value : Nat} (literal : Literal input value rest) :
    ∃ c others, input = c :: others ∧ c.isDigit = true := by
  obtain ⟨run, -⟩ := literal
  exact run.head

theorem Label.head {name : String} (label : Label input name rest) : ∃ others, input = '@' :: others := by
  obtain ⟨-⟩ := label
  exact ⟨_, rfl⟩

theorem toLower_ne_of_isDigit {c : Char} (digit : c.isDigit = true) : c.toLower ≠ 'r' := by
  intro same
  have alpha : c.isAlpha = true := by
    rw [← Char.isAlpha_toLower_eq_isAlpha, same]
    rfl
  have range := Text.toNat_of_isAlpha alpha
  have low : c.toNat ≤ 0x39 := (Char.isDigit_iff_toNat.1 digit).2
  omega

section Argument

variable {c : Char} {others : List Char} {α : Type}

theorem rejects_register_of_head (fixed : α) (register : Register) (different : c.toLower ≠ 'r') :
    Rejects (matchedAs (.noCase register.name.toList) fixed) (c :: others) := by
  intro value rest parsed
  obtain ⟨_, _, same, letter⟩ := (matchedAs_name_eq_parsed_iff.1 parsed).1.head
  cases same
  exact different letter

theorem rejects_immediate_of_head (change : Nat → α) (different : c ≠ '#') :
    Rejects ((thenRead (matched (.char '#')) literal).mapValue change) (c :: others) := by
  intro value rest parsed
  obtain ⟨_, parsed, -⟩ := mapValue_eq_parsed_iff.1 parsed
  obtain ⟨_, _, marker, -⟩ := thenRead_eq_parsed_iff.1 parsed
  exact different (List.cons.inj (matched_char_eq_parsed_iff.1 marker).1).1

theorem rejects_literal_of_head (change : Nat → α) (different : c.isDigit = false) :
    Rejects (literal.mapValue change) (c :: others) := by
  intro value rest parsed
  obtain ⟨_, parsed, -⟩ := mapValue_eq_parsed_iff.1 parsed
  obtain ⟨_, _, same, digit⟩ := (literal_eq_parsed_iff.1 parsed).head
  cases same
  rw [digit] at different
  cases different

end Argument

theorem argument_eq_parsed_iff {value : Argument String} :
    argument input = .parsed value rest ↔ ArgumentText input value rest := by
  constructor
  · intro parsed
    obtain ⟨parser, member, parsed⟩ := exists_of_either_eq_parsed parsed
    simp only [List.mem_cons, List.not_mem_nil, or_false] at member
    obtain rfl | rfl | rfl | rfl := member
    · obtain ⟨named, rfl⟩ := matchedAs_name_eq_parsed_iff.1 parsed
      exact .accumulator named
    · obtain ⟨number, inner, rfl⟩ := mapValue_eq_parsed_iff.1 parsed
      obtain ⟨_, mid, marker, field⟩ := thenRead_eq_parsed_iff.1 inner
      obtain ⟨rfl, -⟩ := matched_char_eq_parsed_iff.1 marker
      exact .immediate (literal_eq_parsed_iff.1 field)
    · obtain ⟨number, inner, rfl⟩ := mapValue_eq_parsed_iff.1 parsed
      exact .direct (literal_eq_parsed_iff.1 inner)
    · obtain ⟨name, inner, rfl⟩ := mapValue_eq_parsed_iff.1 parsed
      exact .label (label_eq_parsed_iff.1 inner)
  · intro text
    simp only [argument, either_cons_eq_parsed_iff, either_nil_eq_parsed_iff, and_false, or_false]
    cases text with
    | accumulator register => exact .inl (matchedAs_name_eq_parsed_iff.2 ⟨register, rfl⟩)
    | immediate literal =>
        refine .inr ⟨rejects_register_of_head _ _ (by decide), .inl (mapValue_eq_parsed_iff.2 ⟨_, ?_, rfl⟩)⟩
        exact thenRead_eq_parsed_iff.2 ⟨_, _, matched_char_eq_parsed_iff.2 ⟨rfl, rfl⟩, literal_eq_parsed_iff.2 literal⟩
    | direct literal =>
        obtain ⟨c, others, rfl, digit⟩ := literal.head
        refine .inr ⟨rejects_register_of_head _ _ (toLower_ne_of_isDigit digit), .inr ⟨?_, .inl ?_⟩⟩
        · apply rejects_immediate_of_head
          rintro rfl
          revert digit
          decide
        · exact mapValue_eq_parsed_iff.2 ⟨_, literal_eq_parsed_iff.2 literal, rfl⟩
    | label label =>
        obtain ⟨others, rfl⟩ := label.head
        refine .inr ⟨rejects_register_of_head _ _ (by decide), .inr ⟨rejects_immediate_of_head _ (by decide),
          .inr ⟨?_, ?_⟩⟩⟩
        · exact rejects_literal_of_head _ (by decide)
        · exact mapValue_eq_parsed_iff.2 ⟨_, label_eq_parsed_iff.2 label, rfl⟩

/-- An argument does not start with a blank or a comma. -/
theorem ArgumentText.head {value : Argument String} (text : ArgumentText input value rest) :
    ∃ c others, input = c :: others ∧ Solid c ∧ c ≠ ',' := by
  cases text with
  | accumulator register =>
      obtain ⟨c, others, rfl, letter⟩ := register.head
      refine ⟨c, others, rfl, solid_of_toLower (letter ▸ by decide), ?_⟩
      rintro rfl
      revert letter
      decide
  | immediate literal => exact ⟨_, _, rfl, by decide, by decide⟩
  | direct literal =>
      obtain ⟨c, others, rfl, digit⟩ := literal.head
      refine ⟨c, others, rfl, solid_of_isDigit digit, ?_⟩
      rintro rfl
      revert digit
      decide
  | label label =>
      obtain ⟨others, rfl⟩ := label.head
      exact ⟨_, _, rfl, by decide, by decide⟩

end Terminals

section Words

variable {input rest : List Char}

/-- The words that can stand at the start of a body: those of an operation, or those of data. -/
def wordsOf : Option Opcode → List String
  | some opcode => spellings opcode
  | none => dataSpellings

def wordKinds : List (Option Opcode) := none :: Opcode.all.map some

theorem mem_wordKinds (kind : Option Opcode) : kind ∈ wordKinds := by
  cases kind with
  | none => simp [wordKinds]
  | some opcode => cases opcode <;> simp [wordKinds, Opcode.all]

def lowered (spelling : String) : List Char := spelling.toList.map Char.toLower

/-- No word is the start of another one with another meaning, except for a jump and a conditional jump. -/
theorem kind_of_prefix : ∀ longer ∈ wordKinds, ∀ shorter ∈ wordKinds, ∀ spelling ∈ wordsOf longer,
    ∀ start ∈ wordsOf shorter, (lowered start).isPrefixOf (lowered spelling) = true →
      shorter = longer ∨ (shorter = some .jump ∧ longer = some .jumpIfZero) := by
  decide +kernel

theorem solid_of_mem_lowered : ∀ kind ∈ wordKinds, ∀ spelling ∈ wordsOf kind, ∀ letter ∈ lowered spelling,
    Solid letter := by
  have table : ∀ kind ∈ wordKinds, ∀ spelling ∈ wordsOf kind,
      (lowered spelling).all (fun letter => letter.isAlpha || letter == '-') = true := by
    decide +kernel
  intro kind listed spelling member letter inside
  have known := List.all_eq_true.1 (table kind listed spelling member) letter inside
  simp only [Bool.or_eq_true, beq_iff_eq] at known
  obtain alpha | rfl := known
  · exact solid_of_isAlpha alpha
  · decide

theorem head?_lowered : ∀ kind ∈ wordKinds, ∀ spelling ∈ wordsOf kind,
    (lowered spelling).head?.any Char.isAlpha = true := by
  decide +kernel

/-- No word for an operation that stands alone is the start of another one. -/
theorem eq_of_prefix_nullary : ∀ opcode ∈ nullaryOpcodes, ∀ spelling ∈ spellings opcode,
    ∀ start ∈ spellings opcode, (lowered start).isPrefixOf (lowered spelling) = true → start = spelling := by
  decide +kernel

def WordOf (kind : Option Opcode) (input word rest : List Char) : Prop :=
  ∃ spelling ∈ wordsOf kind, Spelled spelling.toList input word rest

theorem keyword_eq_parsed_iff {kind : Option Opcode} {word : List Char} :
    keyword (wordsOf kind) input = .parsed word rest ↔
      WordOf kind input word rest ∧ ∀ other behind, WordOf kind input other behind → other.length ≤ word.length := by
  rw [keyword, matched_anyNoCase_eq_parsed_iff]
  constructor
  · rintro ⟨⟨_, listed, spelled⟩, longest⟩
    obtain ⟨spelling, member, rfl⟩ := List.mem_map.1 listed
    refine ⟨⟨spelling, member, spelled⟩, ?_⟩
    rintro other behind ⟨start, found, begins⟩
    exact longest _ (List.mem_map_of_mem found) _ _ begins
  · rintro ⟨⟨spelling, member, spelled⟩, longest⟩
    refine ⟨⟨_, List.mem_map_of_mem member, spelled⟩, ?_⟩
    intro _ listed other behind begins
    obtain ⟨start, found, rfl⟩ := List.mem_map.1 listed
    exact longest _ _ ⟨start, found, begins⟩

section WordOf

variable {kind other : Option Opcode} {word shorter behind field : List Char}

theorem WordOf.split (reads : WordOf kind input word rest) : input = word ++ rest := by
  obtain ⟨_, _, spelled⟩ := reads
  exact spelled.split

theorem WordOf.solid (reads : WordOf kind input word rest) : ∀ c ∈ word, Solid c := by
  obtain ⟨spelling, listed, spelled⟩ := reads
  intro c member
  apply solid_of_toLower
  apply solid_of_mem_lowered kind (mem_wordKinds kind) spelling listed
  rw [lowered, ← spelled.letters]
  exact List.mem_map_of_mem member

theorem WordOf.head (reads : WordOf kind input word rest) :
    ∃ c others, input = c :: others ∧ c.toLower.isAlpha = true := by
  obtain ⟨spelling, listed, split, letters⟩ := reads
  have start := head?_lowered kind (mem_wordKinds kind) spelling listed
  rw [lowered, ← letters] at start
  cases word with
  | nil => cases start
  | cons c word => exact ⟨c, word ++ rest, split, start⟩

/-- Of two words at the start of a text, the shorter one has the kind of the longer one. -/
theorem WordOf.kind_of_length_le (reads : WordOf kind input word rest) (also : WordOf other input shorter behind)
    (shorter : shorter.length ≤ word.length) :
    other = kind ∨ (other = some .jump ∧ kind = some .jumpIfZero) := by
  obtain ⟨spelling, listed, spelled⟩ := reads
  obtain ⟨start, found, begins⟩ := also
  exact kind_of_prefix kind (mem_wordKinds kind) other (mem_wordKinds other) spelling listed start found
    (List.isPrefixOf_iff_prefix.2 (spelled.prefix_of_length_le begins shorter))

theorem WordOf.opcode_of_length_le {opcode plain : Opcode} (reads : WordOf (some opcode) input word rest)
    (also : WordOf (some plain) input shorter behind) (shorter : shorter.length ≤ word.length)
    (noJump : plain ≠ .jump) : plain = opcode := by
  obtain same | ⟨jump, -⟩ := reads.kind_of_length_le also shorter
  · exact Option.some.inj same
  · exact absurd (Option.some.inj jump) noJump

theorem Gap.head {input rest : List Char} (gap : Gap input rest) : ∃ c others, input = c :: others ∧ ¬ Solid c := by
  obtain ⟨mid, blank, -⟩ := Relation.TransGen.head'_iff.1 gap
  cases input with
  | nil => exact absurd blank (stops_nil mid)
  | cons c others => exact ⟨c, others, rfl, fun solid => stops_cons solid mid blank⟩

/-- A word goes no further than a gap. -/
theorem WordOf.length_le_of_gap (split : input = word ++ rest) (gap : Gap rest field)
    (reads : WordOf other input shorter behind) : shorter.length ≤ word.length := by
  apply Nat.le_of_not_lt
  intro longer
  obtain ⟨c, others, rfl, blank⟩ := gap.head
  have whole : word ++ [c] <+: input := ⟨others, by simp [split]⟩
  have inside : word ++ [c] <+: shorter :=
    List.prefix_of_prefix_length_le whole ⟨behind, reads.split.symm⟩ (by rw [List.length_append]; exact longer)
  exact blank (reads.solid c (inside.subset (by simp)))

/-- Where a gap follows two words at the start of a text, they are of one kind. -/
theorem WordOf.kind_of_gap (reads : WordOf kind input word rest) (gap : Gap rest field)
    (also : WordOf other input shorter behind) {start : List Char} (another : Gap behind start) : other = kind := by
  have lengths : shorter.length = word.length :=
    Nat.le_antisymm (also.length_le_of_gap reads.split gap) (reads.length_le_of_gap also.split another)
  obtain same | ⟨rfl, rfl⟩ := reads.kind_of_length_le also (Nat.le_of_eq lengths)
  · exact same
  · obtain same | ⟨absurd, -⟩ := also.kind_of_length_le reads (Nat.le_of_eq lengths.symm)
    · exact same.symm
    · cases absurd

theorem keyword_of_gap (reads : WordOf kind input word rest) (gap : Gap rest field) :
    keyword (wordsOf kind) input = .parsed word rest :=
  keyword_eq_parsed_iff.2 ⟨reads, fun _ _ => WordOf.length_le_of_gap reads.split gap⟩

/-- A word, a gap, and what belongs to the word. -/
theorem wordWith_eq_parsed_iff {α : Type} {object : Parser α} {value : α}
    (solid : ∀ field value rest, object field = .parsed value rest → Stops field) :
    wordWith (wordsOf kind) object input = .parsed value rest ↔
      ∃ word behind field, WordOf kind input word behind ∧ Gap behind field ∧ object field = .parsed value rest := by
  simp only [wordWith, thenRead_eq_parsed_iff]
  constructor
  · rintro ⟨word, behind, read, _, field, skipped, parsed⟩
    exact ⟨word, behind, field, (keyword_eq_parsed_iff.1 read).1, (ignored_eq_parsed_iff.1 skipped).1, parsed⟩
  · rintro ⟨word, behind, field, reads, gap, parsed⟩
    exact ⟨word, behind, keyword_of_gap reads gap, (), field, ignored_eq_parsed_iff.2 ⟨gap, solid _ _ _ parsed⟩, parsed⟩

end WordOf

end Words
end WordMachine.Assembly.Syntax
