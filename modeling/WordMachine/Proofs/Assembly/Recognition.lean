import WordMachine.Proofs.Assembly.Lexemes

/-! # The parser accepts the syntax

For each production, the parser succeeds exactly where the syntax has a derivation, with the same value and the
same rest.  The parser is greedy and takes the first alternative that succeeds; what stands behind a repetition
never starts with another round of it, and no word starts another one that could stand in its place, so neither
cuts off a derivation.
-/

namespace WordMachine.Assembly.Syntax

open Parsing Parser Grammar

section Lengths

theorem shortens_ignored : Shortens ignored := shortens_blankPiece.many.mapValue _

theorem leaves_literal : Leaves literal := by
  intro input value rest parsed
  obtain ⟨run, -⟩ := literal_eq_parsed_iff.1 parsed
  rw [run.split, utf8Length_append]
  exact Nat.le_add_left _ _

theorem shortens_label : Shortens label := by
  intro input name rest parsed
  obtain ⟨run⟩ := label_eq_parsed_iff.1 parsed
  rw [run.split, ← List.cons_append]
  exact utf8Length_lt (List.cons_ne_nil _ _)

theorem leaves_register : Leaves register := by
  apply leaves_either
  intro parser member
  obtain ⟨name, -, rfl⟩ := List.mem_map.1 member
  exact (leaves_matched _).mapValue _

theorem leaves_argument : Leaves argument := by
  apply leaves_either
  simp only [List.forall_mem_cons, List.not_mem_nil, false_implies, implies_true, and_true]
  exact ⟨(leaves_matched _).mapValue _, ((leaves_matched _).both leaves_literal).mapValue _ |>.mapValue _,
    leaves_literal.mapValue _, shortens_label.leaves.mapValue _⟩

theorem leaves_separator : Leaves separator := by
  have blanks := shortens_ignored.leaves.optional
  apply leaves_either
  simp only [List.forall_mem_cons, List.not_mem_nil, false_implies, implies_true, and_true]
  exact ⟨(blanks.both ((leaves_matched _).both blanks)).mapValue _, shortens_ignored.leaves⟩

theorem leaves_operation (words : List (Opcode × List String)) : Leaves (operation words) := by
  apply leaves_either
  intro parser member
  obtain ⟨_, -, rfl⟩ := List.mem_map.1 member
  exact (leaves_matched _).mapValue _

theorem leaves_wordWith {α : Type} {object : Parser α} (leaves : Leaves object) (words : List String) :
    Leaves (wordWith words object) :=
  ((leaves_matched _).both ((shortens_ignored.leaves.both leaves).mapValue _)).mapValue _

theorem leaves_body : Leaves (either [nullary, unary, binary]) := by
  apply leaves_either
  simp only [List.forall_mem_cons, List.not_mem_nil, false_implies, implies_true, and_true]
  refine ⟨(leaves_operation _).mapValue _, leaves_either ?_, ?_⟩
  · simp only [List.forall_mem_cons, List.not_mem_nil, false_implies, implies_true, and_true]
    exact ⟨(leaves_wordWith leaves_literal _).mapValue _, (leaves_wordWith leaves_argument _).mapValue _,
      (leaves_wordWith leaves_register _).mapValue _⟩
  · have operand := (leaves_separator.both leaves_argument).mapValue Prod.snd
    have field := (shortens_ignored.leaves.both (leaves_register.both operand)).mapValue Prod.snd
    exact ((leaves_operation _).both field).mapValue _

theorem shortens_labelDefinition : Shortens labelDefinition :=
  (shortens_label.both ((leaves_matched _).optional.both shortens_ignored.leaves.optional)).mapValue _

theorem shortens_next : Shortens (thenRead ignored statement) := by
  have labels := shortens_labelDefinition.many.leaves.optional
  exact (shortens_ignored.both ((labels.both leaves_body).mapValue _)).mapValue _

end Lengths

section Bodies

variable {input rest : List Char}

/-- A text starts with a word of a kind and a gap. -/
def Gapped (kind : Option Opcode) (input field : List Char) : Prop :=
  ∃ word behind, WordOf kind input word behind ∧ Gap behind field

theorem Gapped.unique {kind other : Option Opcode} {field start : List Char} (gapped : Gapped kind input field)
    (also : Gapped other input start) : other = kind := by
  obtain ⟨word, behind, reads, gap⟩ := gapped
  obtain ⟨shorter, mid, begins, another⟩ := also
  exact reads.kind_of_gap gap begins another

theorem gapped_iff {words : List String} {kind : Option Opcode} (same : wordsOf kind = words) {field : List Char} :
    Gapped kind input field ↔ ∃ behind, Word words input behind ∧ Gap behind field := by
  subst same
  constructor
  · rintro ⟨word, behind, ⟨spelling, listed, spelled⟩, gap⟩
    exact ⟨behind, ⟨spelling, listed, word, spelled⟩, gap⟩
  · rintro ⟨behind, ⟨spelling, listed, word, spelled⟩, gap⟩
    exact ⟨word, behind, ⟨spelling, listed, spelled⟩, gap⟩

theorem gapped_eq_parsed_iff {α β : Type} {words : List String} {kind : Option Opcode} (same : wordsOf kind = words)
    {object : Parser α} (solid : ∀ field value rest, object field = .parsed value rest → Stops field)
    {change : α → β} {value : β} :
    (wordWith words object).mapValue change input = .parsed value rest ↔
      ∃ field inner, Gapped kind input field ∧ object field = .parsed inner rest ∧ change inner = value := by
  subst same
  rw [mapValue_eq_parsed_iff]
  constructor
  · rintro ⟨inner, parsed, same⟩
    obtain ⟨word, behind, field, reads, gap, parsed⟩ := (wordWith_eq_parsed_iff solid).1 parsed
    exact ⟨field, inner, ⟨word, behind, reads, gap⟩, parsed, same⟩
  · rintro ⟨field, inner, ⟨word, behind, reads, gap⟩, parsed, same⟩
    exact ⟨inner, (wordWith_eq_parsed_iff solid).2 ⟨word, behind, field, reads, gap, parsed⟩, same⟩

theorem stops_of_literal (field : List Char) (value : Nat) (rest : List Char)
    (parsed : literal field = .parsed value rest) : Stops field := by
  obtain ⟨c, others, rfl, digit⟩ := (literal_eq_parsed_iff.1 parsed).head
  exact stops_cons (solid_of_isDigit digit)

theorem stops_of_argument (field : List Char) (value : Argument String) (rest : List Char)
    (parsed : argument field = .parsed value rest) : Stops field := by
  obtain ⟨c, others, rfl, solid, -⟩ := (argument_eq_parsed_iff.1 parsed).head
  exact stops_cons solid

theorem stops_of_register (field : List Char) (name : Register) (rest : List Char)
    (parsed : register field = .parsed name rest) : Stops field := by
  obtain ⟨c, others, rfl, letter⟩ := (register_eq_parsed_iff.1 parsed).head
  exact stops_cons (solid_of_toLower (letter ▸ by decide))

theorem data_eq_parsed_iff {shape : Shape String} :
    (wordWith ["mem", "memory"] literal).mapValue .data input = .parsed shape rest ↔
      ∃ field value, Gapped none input field ∧ Literal field value rest ∧ .data value = shape := by
  simp only [← literal_eq_parsed_iff]
  exact gapped_eq_parsed_iff (show wordsOf none = _ from rfl) stops_of_literal

theorem jump_eq_parsed_iff {shape : Shape String} :
    (wordWith ["jmp", "jump"] argument).mapValue (fun argument => .unary .jump none (some argument)) input =
        .parsed shape rest ↔
      ∃ field argument, Gapped (some .jump) input field ∧ ArgumentText field argument rest ∧
        .unary .jump none (some argument) = shape := by
  simp only [← argument_eq_parsed_iff]
  exact gapped_eq_parsed_iff (show wordsOf (some .jump) = _ from rfl) stops_of_argument

theorem not_eq_parsed_iff {shape : Shape String} :
    (wordWith ["not"] register).mapValue (fun register => .unary .not (some register) none) input =
        .parsed shape rest ↔
      ∃ field name, Gapped (some .not) input field ∧ RegisterName field name rest ∧
        .unary .not (some name) none = shape := by
  simp only [← register_eq_parsed_iff]
  exact gapped_eq_parsed_iff (show wordsOf (some .not) = _ from rfl) stops_of_register

/-- The three kinds of bodies with one argument or register have different words. -/
theorem unary_eq_parsed_iff {shape : Shape String} : unary input = .parsed shape rest ↔
    (∃ field value, Gapped none input field ∧ Literal field value rest ∧ .data value = shape) ∨
    (∃ field argument, Gapped (some .jump) input field ∧ ArgumentText field argument rest ∧
      .unary .jump none (some argument) = shape) ∨
    (∃ field name, Gapped (some .not) input field ∧ RegisterName field name rest ∧
      .unary .not (some name) none = shape) := by
  have noData : ∀ {kind field}, Gapped (some kind) input field →
      Rejects ((wordWith ["mem", "memory"] literal).mapValue (Shape.data : Nat → Shape String)) input := by
    intro kind field gapped shape rest parsed
    obtain ⟨_, _, also, -⟩ := data_eq_parsed_iff.1 parsed
    cases gapped.unique also
  rw [unary, either_cons_eq_parsed_iff, either_cons_eq_parsed_iff, either_cons_eq_parsed_iff,
    either_nil_eq_parsed_iff, data_eq_parsed_iff, jump_eq_parsed_iff, not_eq_parsed_iff]
  constructor
  · rintro (data | ⟨-, jump | ⟨-, not | ⟨-, none⟩⟩⟩)
    · exact .inl data
    · exact .inr (.inl jump)
    · exact .inr (.inr not)
    · exact none.elim
  · rintro (data | ⟨field, argument, gapped, text⟩ | ⟨field, name, gapped, text⟩)
    · exact .inl data
    · exact .inr ⟨noData gapped, .inl ⟨field, argument, gapped, text⟩⟩
    · refine .inr ⟨noData gapped, .inr ⟨?_, .inl ⟨field, name, gapped, text⟩⟩⟩
      intro shape rest parsed
      obtain ⟨_, _, also, -⟩ := jump_eq_parsed_iff.1 parsed
      cases gapped.unique also

theorem operation_eq_either (opcodes : List Opcode) :
    operation (opcodes.map fun opcode => (opcode, spellings opcode)) =
      either (opcodes.map fun opcode => (keyword (wordsOf (some opcode))).mapValue fun _ => opcode) := by
  rw [operation, List.map_map]
  rfl

theorem word_of_operation {opcodes : List Opcode} {opcode : Opcode}
    (parsed : operation (opcodes.map fun opcode => (opcode, spellings opcode)) input = .parsed opcode rest) :
    opcode ∈ opcodes ∧ ∃ word, WordOf (some opcode) input word rest := by
  rw [operation_eq_either] at parsed
  obtain ⟨parser, member, accepted⟩ := exists_of_either_eq_parsed parsed
  obtain ⟨other, listed, rfl⟩ := List.mem_map.1 member
  obtain ⟨word, read, rfl⟩ := mapValue_eq_parsed_iff.1 accepted
  exact ⟨listed, word, (keyword_eq_parsed_iff.1 read).1⟩

theorem operation_of_word {opcodes : List Opcode} {opcode : Opcode} {word : List Char} (member : opcode ∈ opcodes)
    (read : keyword (wordsOf (some opcode)) input = .parsed word rest)
    (only : ∀ other ∈ opcodes, ∀ word behind, WordOf (some other) input word behind → other = opcode) :
    operation (opcodes.map fun opcode => (opcode, spellings opcode)) input = .parsed opcode rest := by
  rw [operation_eq_either]
  refine either_map_eq_parsed member (mapValue_eq_parsed_iff.2 ⟨word, read, rfl⟩) ?_
  intro other listed accepts
  apply Classical.byContradiction
  intro different
  apply accepts
  intro value behind parsed
  obtain ⟨shorter, begins, -⟩ := mapValue_eq_parsed_iff.1 parsed
  exact different (only other listed shorter behind (keyword_eq_parsed_iff.1 begins).1)

theorem nullary_eq_parsed_iff {shape : Shape String} : nullary input = .parsed shape rest ↔
    ∃ opcode ∈ nullaryOpcodes, (∃ word, WordOf (some opcode) input word rest) ∧ .nullary opcode = shape := by
  have table : nullaryWords = nullaryOpcodes.map fun opcode => (opcode, spellings opcode) := rfl
  have noJump : ∀ opcode ∈ nullaryOpcodes, opcode ≠ .jump := by decide
  rw [nullary, mapValue_eq_parsed_iff, table]
  constructor
  · rintro ⟨opcode, parsed, same⟩
    obtain ⟨listed, reads⟩ := word_of_operation parsed
    exact ⟨opcode, listed, reads, same⟩
  · rintro ⟨opcode, listed, ⟨word, reads⟩, same⟩
    refine ⟨opcode, operation_of_word listed (keyword_eq_parsed_iff.2 ⟨reads, ?_⟩) ?_, same⟩
    · -- A longer word of the same operation would start with this one.
      intro longer behind also
      apply Nat.le_of_not_lt
      intro more
      obtain ⟨spelling, member, spelled⟩ := reads
      obtain ⟨other, found, begins⟩ := also
      have start := eq_of_prefix_nullary opcode listed other found spelling member
        (List.isPrefixOf_iff_prefix.2 (begins.prefix_of_length_le spelled (Nat.le_of_lt more)))
      subst start
      have := spelled.length_eq
      have := begins.length_eq
      omega
    · intro other found longer behind also
      rcases Nat.le_total longer.length word.length with shorter | longer
      · exact reads.opcode_of_length_le also shorter (noJump other found)
      · exact (also.opcode_of_length_le reads longer (noJump opcode listed)).symm

theorem comma_eq_parsed_iff {value : Unit} :
    (both (optional ignored) (both (matched (.char ',')) (optional ignored))).mapValue (fun _ => ()) input =
        .parsed value rest ↔
      ∃ mid, Blanks input (',' :: mid) ∧ Blanks mid rest ∧ Stops rest := by
  rw [mapValue_eq_parsed_iff]
  constructor
  · rintro ⟨pair, parsed, -⟩
    obtain ⟨front, before, parsed⟩ := both_eq_parsed_iff.1 parsed
    obtain ⟨mid, marker, behind⟩ := both_eq_parsed_iff.1 parsed
    obtain ⟨rfl, -⟩ := matched_char_eq_parsed_iff.1 marker
    exact ⟨mid, (optional_ignored_eq_parsed_iff.1 ⟨_, before⟩).1, optional_ignored_eq_parsed_iff.1 ⟨_, behind⟩⟩
  · rintro ⟨mid, before, behind, stops⟩
    obtain ⟨one, before⟩ := optional_ignored_eq_parsed_iff.2 ⟨before, stops_cons (by decide)⟩
    obtain ⟨two, behind⟩ := optional_ignored_eq_parsed_iff.2 ⟨behind, stops⟩
    exact ⟨(one, [','], two), both_eq_parsed_iff.2 ⟨_, before, both_eq_parsed_iff.2
      ⟨mid, matched_char_eq_parsed_iff.2 ⟨rfl, rfl⟩, behind⟩⟩, rfl⟩

theorem separator_of_parsed {value : Unit} (parsed : separator input = .parsed value rest) : Separator input rest := by
  rw [separator, either_cons_eq_parsed_iff, either_cons_eq_parsed_iff, either_nil_eq_parsed_iff,
    comma_eq_parsed_iff] at parsed
  obtain ⟨mid, before, behind, -⟩ | ⟨-, skipped | ⟨-, none⟩⟩ := parsed
  · exact .comma before behind
  · exact .gap (ignored_eq_parsed_iff.1 skipped).1
  · exact none.elim

/-- A comma is not taken for the start of an argument. -/
theorem parsed_of_separator {c : Char} {others : List Char} (between : Separator input (c :: others))
    (solid : Solid c) (noComma : c ≠ ',') : separator input = .parsed () (c :: others) := by
  rw [separator, either_cons_eq_parsed_iff, either_cons_eq_parsed_iff, comma_eq_parsed_iff]
  cases between with
  | comma before behind => exact .inl ⟨_, before, behind, stops_cons solid⟩
  | gap gap =>
      refine .inr ⟨?_, .inl (ignored_eq_parsed_iff.2 ⟨gap, stops_cons solid⟩)⟩
      intro value rest parsed
      obtain ⟨mid, before, -⟩ := comma_eq_parsed_iff.1 parsed
      have same := Blanks.unique before gap.to_reflTransGen (stops_cons (by decide)) (stops_cons solid)
      exact noComma (List.cons.inj same).1.symm

theorem binary_eq_parsed_iff {shape : Shape String} : binary input = .parsed shape rest ↔
    ∃ opcode ∈ binaryOpcodes, ∃ field register behind operand argument, Gapped (some opcode) input field ∧
      RegisterName field register behind ∧ Separator behind operand ∧ ArgumentText operand argument rest ∧
      .binary opcode register argument = shape := by
  have table : binaryWords = binaryOpcodes.map fun opcode => (opcode, spellings opcode) := rfl
  have noJump : ∀ opcode ∈ binaryOpcodes, opcode ≠ .jump := by decide
  rw [binary, mapValue_eq_parsed_iff, table]
  constructor
  · rintro ⟨⟨opcode, register, argument⟩, parsed, same⟩
    obtain ⟨mid, word, parsed⟩ := both_eq_parsed_iff.1 parsed
    obtain ⟨listed, word, reads⟩ := word_of_operation word
    obtain ⟨_, field, skipped, parsed⟩ := thenRead_eq_parsed_iff.1 parsed
    obtain ⟨behind, named, parsed⟩ := both_eq_parsed_iff.1 parsed
    obtain ⟨_, operand, between, parsed⟩ := thenRead_eq_parsed_iff.1 parsed
    exact ⟨opcode, listed, field, register, behind, operand, argument,
      ⟨word, mid, reads, (ignored_eq_parsed_iff.1 skipped).1⟩, register_eq_parsed_iff.1 named,
      separator_of_parsed between, argument_eq_parsed_iff.1 parsed, same⟩
  · rintro ⟨opcode, listed, field, register, behind, operand, argument, ⟨word, mid, reads, gap⟩, named, between, text,
      same⟩
    have only : ∀ other ∈ binaryOpcodes, ∀ shorter behind, WordOf (some other) input shorter behind →
        other = opcode := by
      intro other found shorter behind also
      exact reads.opcode_of_length_le also (also.length_le_of_gap reads.split gap) (noJump other found)
    obtain ⟨c, others, rfl, solid, noComma⟩ := text.head
    have parsed := register_eq_parsed_iff.2 named
    have stops := stops_of_register _ _ _ parsed
    exact ⟨(opcode, register, argument), both_eq_parsed_iff.2 ⟨mid,
      operation_of_word listed (keyword_of_gap reads gap) only, thenRead_eq_parsed_iff.2 ⟨(), field,
        ignored_eq_parsed_iff.2 ⟨gap, stops⟩, both_eq_parsed_iff.2 ⟨behind, parsed, thenRead_eq_parsed_iff.2 ⟨(), _,
          parsed_of_separator between solid noComma, argument_eq_parsed_iff.2 text⟩⟩⟩⟩, same⟩

/-- A body has a gap behind its first word, unless it is an operation that stands alone. -/
theorem rejects_nullary {kind : Option Opcode} {field : List Char} (gapped : Gapped kind input field)
    (different : ∀ opcode ∈ nullaryOpcodes, kind ≠ some opcode) : Rejects nullary input := by
  intro shape rest parsed
  obtain ⟨opcode, listed, ⟨shorter, also⟩, -⟩ := nullary_eq_parsed_iff.1 parsed
  obtain ⟨word, behind, reads, gap⟩ := gapped
  obtain same | ⟨jump, -⟩ := reads.kind_of_length_le also (also.length_le_of_gap reads.split gap)
  · exact different opcode listed same.symm
  · cases jump
    simp [nullaryOpcodes] at listed

theorem rejects_unary {opcode : Opcode} {field : List Char} (gapped : Gapped (some opcode) input field)
    (listed : opcode ∈ binaryOpcodes) : Rejects unary input := by
  intro shape rest parsed
  obtain ⟨_, _, also, -⟩ | ⟨_, _, also, -⟩ | ⟨_, _, also, -⟩ := unary_eq_parsed_iff.1 parsed
  · cases gapped.unique also
  · cases gapped.unique also
    simp [binaryOpcodes] at listed
  · cases gapped.unique also
    simp [binaryOpcodes] at listed

theorem body_eq_parsed_iff {shape : Shape String} :
    either [nullary, unary, binary] input = .parsed shape rest ↔ Body input shape rest := by
  rw [either_cons_eq_parsed_iff, either_cons_eq_parsed_iff, either_cons_eq_parsed_iff, either_nil_eq_parsed_iff]
  constructor
  · rintro (parsed | ⟨-, parsed | ⟨-, parsed | ⟨-, none⟩⟩⟩)
    · obtain ⟨opcode, listed, ⟨word, spelling, found, spelled⟩, rfl⟩ := nullary_eq_parsed_iff.1 parsed
      exact .nullary listed ⟨spelling, found, word, spelled⟩
    · obtain ⟨field, value, gapped, text, rfl⟩ | ⟨field, argument, gapped, text, rfl⟩ |
        ⟨field, name, gapped, text, rfl⟩ := unary_eq_parsed_iff.1 parsed
      · obtain ⟨behind, word, gap⟩ := (gapped_iff rfl).1 gapped
        exact .data word gap text
      · obtain ⟨behind, word, gap⟩ := (gapped_iff rfl).1 gapped
        exact .jump word gap text
      · obtain ⟨behind, word, gap⟩ := (gapped_iff rfl).1 gapped
        exact .not word gap text
    · obtain ⟨opcode, listed, field, register, mid, operand, argument, gapped, named, between, text, rfl⟩ :=
        binary_eq_parsed_iff.1 parsed
      obtain ⟨behind, word, gap⟩ := (gapped_iff rfl).1 gapped
      exact .binary listed word gap named between text
    · exact none.elim
  · intro body
    cases body with
    | nullary kind word =>
        obtain ⟨spelling, listed, word, spelled⟩ := word
        exact .inl (nullary_eq_parsed_iff.2 ⟨_, kind, ⟨word, spelling, listed, spelled⟩, rfl⟩)
    | data word gap literal =>
        have gapped : Gapped none input _ := (gapped_iff rfl).2 ⟨_, word, gap⟩
        exact .inr ⟨rejects_nullary gapped (by decide),
          .inl (unary_eq_parsed_iff.2 (.inl ⟨_, _, gapped, literal, rfl⟩))⟩
    | jump word gap operand =>
        have gapped : Gapped (some .jump) input _ := (gapped_iff rfl).2 ⟨_, word, gap⟩
        exact .inr ⟨rejects_nullary gapped (by decide),
          .inl (unary_eq_parsed_iff.2 (.inr (.inl ⟨_, _, gapped, operand, rfl⟩)))⟩
    | not word gap name =>
        have gapped : Gapped (some .not) input _ := (gapped_iff rfl).2 ⟨_, word, gap⟩
        exact .inr ⟨rejects_nullary gapped (by decide),
          .inl (unary_eq_parsed_iff.2 (.inr (.inr ⟨_, _, gapped, name, rfl⟩)))⟩
    | @binary _ _ _ _ _ opcode _ _ kind word gap name separator text =>
        have gapped : Gapped (some opcode) input _ := (gapped_iff rfl).2 ⟨_, word, gap⟩
        have different : ∀ other ∈ nullaryOpcodes, some opcode ≠ some other := by
          have apart : ∀ opcode ∈ binaryOpcodes, ∀ other ∈ nullaryOpcodes, some opcode ≠ some other := by decide
          exact apart opcode kind
        exact .inr ⟨rejects_nullary gapped different, .inr ⟨rejects_unary gapped kind, .inl (binary_eq_parsed_iff.2
          ⟨opcode, kind, _, _, _, _, _, gapped, name, separator, text, rfl⟩)⟩⟩

end Bodies

section Statements

variable {input rest : List Char}

theorem Word.head {kind : Option Opcode} (word : Word (wordsOf kind) input rest) :
    ∃ c others, input = c :: others ∧ c.toLower.isAlpha = true := by
  obtain ⟨spelling, listed, word, spelled⟩ := word
  exact WordOf.head ⟨spelling, listed, spelled⟩

theorem Body.head {shape : Shape String} (body : Body input shape rest) :
    ∃ c others, input = c :: others ∧ c.toLower.isAlpha = true := by
  cases body with
  | @nullary _ opcode _ word => exact Word.head (show Word (wordsOf (some opcode)) _ _ from word)
  | data word _ _ => exact Word.head (show Word (wordsOf none) _ _ from word)
  | jump word _ _ => exact Word.head (show Word (wordsOf (some .jump)) _ _ from word)
  | not word _ _ => exact Word.head (show Word (wordsOf (some .not)) _ _ from word)
  | @binary _ _ _ _ _ opcode _ _ _ word _ _ _ _ => exact Word.head (show Word (wordsOf (some opcode)) _ _ from word)

/-- Where a label definition or a body starts. -/
def StartsStatement (input : List Char) : Prop :=
  ∃ c others, input = c :: others ∧ (c = '@' ∨ c.toLower.isAlpha = true)

theorem StartsStatement.stops (starts : StartsStatement input) : Stops input := by
  obtain ⟨c, others, rfl, rfl | alpha⟩ := starts
  · exact stops_cons (by decide)
  · exact stops_cons (solid_of_toLower (solid_of_isAlpha alpha))

theorem LabelDefinitions.starts {names : List String} {shape : Shape String} {mid : List Char}
    (definitions : LabelDefinitions input names mid) (body : Body mid shape rest) : StartsStatement input := by
  cases definitions with
  | none =>
      obtain ⟨c, others, same, alpha⟩ := body.head
      exact ⟨c, others, same, .inr alpha⟩
  | more first _ =>
      obtain ⟨label, -, -⟩ := first
      obtain ⟨others, same⟩ := label.head
      exact ⟨'@', others, same, .inl rfl⟩

theorem definition_of_parsed {name : String} (parsed : labelDefinition input = .parsed name rest) :
    LabelDefinition input name rest := by
  obtain ⟨pair, behindName, named, parsed⟩ := followedBy_eq_parsed_iff.1 parsed
  obtain ⟨behindColon, colon, blanks⟩ := both_eq_parsed_iff.1 parsed
  have skipped := (optional_ignored_eq_parsed_iff.1 ⟨_, blanks⟩).1
  have label := label_eq_parsed_iff.1 named
  obtain ⟨_, -, marker⟩ | ⟨-, rfl, -⟩ := optional_eq_parsed_iff.1 colon
  · obtain ⟨rfl, -⟩ := matched_char_eq_parsed_iff.1 marker
    exact .mk label .present skipped
  · exact .mk label .absent skipped

theorem optional_colon (rest : List Char) :
    optional (matched (.char ':')) (':' :: rest) = .parsed (some [':']) rest :=
  optional_eq_parsed_iff.2 (.inl ⟨_, rfl, matched_char_eq_parsed_iff.2 ⟨rfl, rfl⟩⟩)

/-- What stands behind a label definition is not taken for its colon or its blanks. -/
theorem parsed_of_definition {name : String} (definition : LabelDefinition input name rest)
    (starts : StartsStatement rest) : labelDefinition input = .parsed name rest := by
  obtain ⟨label, colon, blanks⟩ := definition
  have stops := starts.stops
  obtain ⟨skipped, parsed⟩ := optional_ignored_eq_parsed_iff.2 ⟨blanks, stops⟩
  cases colon with
  | present =>
      exact followedBy_eq_parsed_iff.2 ⟨(some [':'], skipped), _, label_eq_parsed_iff.2 label,
        both_eq_parsed_iff.2 ⟨_, optional_colon _, parsed⟩⟩
  | absent =>
      refine followedBy_eq_parsed_iff.2 ⟨(none, skipped), _, label_eq_parsed_iff.2 label,
        both_eq_parsed_iff.2 ⟨_, optional_eq_parsed_iff.2 (.inr ⟨rfl, rfl, ?_⟩), parsed⟩⟩
      intro value others parsed
      obtain ⟨rfl, -⟩ := matched_char_eq_parsed_iff.1 parsed
      obtain rfl := Blanks.unique .refl blanks (stops_cons (by decide)) stops
      obtain ⟨c, _, same, kind⟩ := starts
      cases same
      revert kind
      decide

theorem definitions_of_iterates {names : List String} (iterates : Iterates labelDefinition input names rest) :
    LabelDefinitions input names rest := by
  induction iterates with
  | stop _ => exact .none
  | step parsed _ ih => exact .more (definition_of_parsed parsed) ih

theorem iterates_of_definitions {names : List String} {shape : Shape String} {mid : List Char}
    (definitions : LabelDefinitions input names mid) (body : Body mid shape rest) :
    Iterates labelDefinition input names mid := by
  induction definitions with
  | none =>
      refine .stop ?_
      intro name behind parsed
      obtain ⟨label, -, -⟩ := definition_of_parsed parsed
      obtain ⟨others, rfl⟩ := label.head
      obtain ⟨c, _, same, alpha⟩ := body.head
      cases same
      revert alpha
      decide
  | more first others ih => exact .step (parsed_of_definition first (others.starts body)) (ih body)

theorem statement_eq_parsed_iff {value : Statement} :
    statement input = .parsed value rest ↔ StatementText input value rest := by
  rw [statement, mapValue_eq_parsed_iff]
  constructor
  · rintro ⟨⟨labels, shape⟩, parsed, rfl⟩
    obtain ⟨mid, labelled, body⟩ := both_eq_parsed_iff.1 parsed
    have iterates := (optional_many_eq_parsed_iff shortens_labelDefinition).1 ⟨labels, labelled, rfl⟩
    exact .mk (definitions_of_iterates iterates) (body_eq_parsed_iff.1 body)
  · rintro ⟨definitions, body⟩
    obtain ⟨labels, labelled, rfl⟩ :=
      (optional_many_eq_parsed_iff shortens_labelDefinition).2 (iterates_of_definitions definitions body)
    exact ⟨(labels, _), both_eq_parsed_iff.2 ⟨_, labelled, body_eq_parsed_iff.2 body⟩, rfl⟩

theorem StatementText.starts {value : Statement} (text : StatementText input value rest) : StartsStatement input := by
  obtain ⟨definitions, body⟩ := text
  exact definitions.starts body

theorem next_eq_parsed_iff {value : Statement} : thenRead ignored statement input = .parsed value rest ↔
    ∃ mid, Gap input mid ∧ StatementText mid value rest := by
  rw [thenRead_eq_parsed_iff]
  constructor
  · rintro ⟨_, mid, skipped, parsed⟩
    exact ⟨mid, (ignored_eq_parsed_iff.1 skipped).1, statement_eq_parsed_iff.1 parsed⟩
  · rintro ⟨mid, gap, text⟩
    exact ⟨(), mid, ignored_eq_parsed_iff.2 ⟨gap, text.starts.stops⟩, statement_eq_parsed_iff.2 text⟩

theorem others_iff {statements : List Statement} : Others input statements ↔
    ∃ rest, Iterates (thenRead ignored statement) input statements rest ∧ Blanks rest [] := by
  constructor
  · intro others
    induction others with
    | done blanks =>
        refine ⟨_, .stop ?_, blanks⟩
        intro value rest parsed
        obtain ⟨mid, gap, text⟩ := next_eq_parsed_iff.1 parsed
        obtain ⟨c, others, same, -⟩ := text.starts
        rw [Blanks.unique gap.to_reflTransGen blanks text.starts.stops stops_nil] at same
        cases same
    | next gap text _ ih =>
        obtain ⟨rest, iterates, blanks⟩ := ih
        exact ⟨rest, .step (next_eq_parsed_iff.2 ⟨_, gap, text⟩) iterates, blanks⟩
  · rintro ⟨rest, iterates, blanks⟩
    induction iterates with
    | stop _ => exact .done blanks
    | step parsed _ ih =>
        obtain ⟨mid, gap, text⟩ := next_eq_parsed_iff.1 parsed
        exact .next gap text (ih blanks)

/-- The statements behind the first one, with the blanks at the end of the text. -/
theorem others_eq_parsed_iff {statements : List Statement} :
    (∃ values blanks, both (optional (many (thenRead ignored statement))) (optional ignored) input =
        .parsed (values, blanks) [] ∧ values.getD [] = statements) ↔ Others input statements := by
  rw [others_iff]
  constructor
  · rintro ⟨values, blanks, parsed, same⟩
    obtain ⟨mid, read, skipped⟩ := both_eq_parsed_iff.1 parsed
    have iterates := (optional_many_eq_parsed_iff shortens_next).1 ⟨values, read, same⟩
    exact ⟨mid, iterates, (optional_ignored_eq_parsed_iff.1 ⟨_, skipped⟩).1⟩
  · rintro ⟨mid, iterates, blanks⟩
    obtain ⟨values, read, same⟩ := (optional_many_eq_parsed_iff shortens_next).2 iterates
    obtain ⟨skipped, behind⟩ := optional_ignored_eq_parsed_iff.2 ⟨blanks, stops_nil⟩
    exact ⟨values, skipped, both_eq_parsed_iff.2 ⟨mid, read, behind⟩, same⟩

end Statements

theorem program_eq_parsed_iff {source : List Char} {statements : List Statement} :
    program source = .parsed statements [] ↔ ProgramText source statements := by
  rw [program, mapValue_eq_parsed_iff]
  constructor
  · rintro ⟨⟨_, first, values, blanks⟩, parsed, rfl⟩
    obtain ⟨mid, skipped, parsed⟩ := both_eq_parsed_iff.1 parsed
    obtain ⟨rest, read, parsed⟩ := both_eq_parsed_iff.1 parsed
    obtain ⟨before, stops⟩ := optional_ignored_eq_parsed_iff.1 ⟨_, skipped⟩
    have others := others_eq_parsed_iff.1 ⟨values, blanks, parsed, rfl⟩
    obtain ⟨statement, rfl, text⟩ | ⟨rfl, rfl, -⟩ := optional_eq_parsed_iff.1 read
    · exact .statements before (statement_eq_parsed_iff.1 text) others
    · -- Behind the blanks there is neither a statement nor another gap.
      change ProgramText source (values.getD [])
      generalize values.getD [] = statements at others ⊢
      cases others with
      | done blanks => exact .empty (before.trans blanks)
      | next gap text _ =>
          obtain ⟨behind, blank, -⟩ := Relation.TransGen.head'_iff.1 gap
          exact absurd blank (stops behind)
  · intro text
    cases text with
    | empty blanks =>
        obtain ⟨skipped, parsed⟩ := optional_ignored_eq_parsed_iff.2 ⟨blanks, stops_nil⟩
        obtain ⟨values, after, behind, same⟩ := others_eq_parsed_iff.2 (.done .refl)
        have rejects : Rejects statement [] := by
          intro value rest parsed
          obtain ⟨c, others, same, -⟩ := (statement_eq_parsed_iff.1 parsed).starts
          cases same
        exact ⟨(skipped, none, values, after), both_eq_parsed_iff.2 ⟨_, parsed, both_eq_parsed_iff.2
          ⟨_, optional_eq_parsed_iff.2 (.inr ⟨rfl, rfl, rejects⟩), behind⟩⟩, same⟩
    | @statements _ _ first _ blanks text others =>
        obtain ⟨skipped, parsed⟩ := optional_ignored_eq_parsed_iff.2 ⟨blanks, text.starts.stops⟩
        obtain ⟨values, after, behind, rfl⟩ := others_eq_parsed_iff.2 others
        exact ⟨(skipped, some first, values, after), both_eq_parsed_iff.2 ⟨_, parsed, both_eq_parsed_iff.2
          ⟨_, optional_eq_parsed_iff.2 (.inl ⟨_, rfl, statement_eq_parsed_iff.2 text⟩), behind⟩⟩, rfl⟩

/-- The parser succeeds on a text that it reads to its end. -/
theorem parse_eq_ok_iff {source : String} {statements : List Statement} :
    parse source = .ok statements ↔ ProgramText source.toList statements := by
  rw [← program_eq_parsed_iff, parse]
  constructor
  · intro parsed
    split at parsed
    next values read =>
      cases parsed
      exact read
    next => cases parsed
  · intro read
    rw [read]

/-- The parser accepts the texts of the syntax with the statements that they spell, and no other texts; so no text
    spells two programs. -/
theorem parse_accepts_syntax (source : String) :
    (∀ statements, parse source = .ok statements ↔ ProgramText source.toList statements) ∧
      ∀ first second, ProgramText source.toList first → ProgramText source.toList second → first = second := by
  refine ⟨fun statements => parse_eq_ok_iff, fun first second one two => ?_⟩
  have parsed := parse_eq_ok_iff.2 one
  rw [parse_eq_ok_iff.2 two] at parsed
  cases parsed
  rfl

end WordMachine.Assembly.Syntax
