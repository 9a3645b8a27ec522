import WordMachine.Proofs.Assembly.Acceptance
import WordMachine.Proofs.Assembly.Printing
import WordMachine.Proofs.Assembly.Renaming
import WordMachine.Proofs.Text.Digits

/-! # Listings are programs

A listing shows every instruction of a program behind its address.  Without the column of addresses it is a text of
the program again: labels are attached where they were, and addresses stand where there were references to labels.
So it is assembled to the same instructions, the same labels and the same image, whatever addresses there are.
-/

namespace WordMachine.Assembly

/-- The lines of a text in which every line is ended by a line break. -/
def linesOf (text : String) : List (List Char) := (text.toList.splitOn '\n').dropLast

/-- The upper-case hexadecimal digits at the start of a line. -/
def addressColumn (line : List Char) : List Char := line.takeWhile (· ∈ Radix.hexadecimal.alphabet)

/-- A line without the address at its start and the two characters behind the address. -/
def withoutColumn (line : List Char) : List Char := (line.dropWhile (· ∈ Radix.hexadecimal.alphabet)).drop 2

/-- A listing without its column of addresses. -/
def bareListing (listing : String) : String :=
  String.ofList ((linesOf listing).flatMap fun line => withoutColumn line ++ ['\n'])

/-- A number in at least four hexadecimal digits, with no more zeros in front than that takes. -/
structure ShowsAddress (column : List Char) (address : Nat) : Prop where
  digits : ∀ c ∈ column, c ∈ Radix.hexadecimal.alphabet
  value : Radix.hexadecimal.valueOf column = address
  wide : 4 ≤ column.length
  tight : 4 < column.length → column.head? ≠ some '0'

/-- A line of a listing: the address of an instruction, two spaces, and the rest. -/
structure Lists (line : List Char) (instruction : Instruction) : Prop where
  column : ShowsAddress (addressColumn line) instruction.address
  spaces : line = addressColumn line ++ ' ' :: ' ' :: withoutColumn line

/-- An instruction as a statement: its labels, and its argument with an address for every label. -/
def Instruction.statement (instruction : Instruction) : Statement :=
  ⟨instruction.labels, instruction.shape.map Empty.elim⟩

section Layouts

variable {start finish : Nat} {instructions : List Instruction} {statements : List Statement} {result : Layout}

theorem Instruction.size_statement (instruction : Instruction) : instruction.statement.shape.size = instruction.size :=
  (Shape.size_of_resolve (Shape.resolve_map (fun _ => Except.ok 0 : String → Except Fault Nat) instruction.shape)).symm

/-- Instructions that tile a range are placed where they are. -/
theorem Tiles.place_statements (tiles : Tiles start finish instructions) :
    place start (instructions.map Instruction.statement) =
      instructions.map fun instruction => (instruction.address, instruction.statement) := by
  induction instructions generalizing start with
  | nil => rfl
  | cons first rest ih =>
      obtain ⟨rfl, others⟩ := tiles
      rw [List.map_cons, place, first.size_statement, List.map_cons, ← ih others, Instruction.next]

theorem resolveAll_statements (table : LabelTable) (instructions : List Instruction) :
    resolveAll table (instructions.map fun instruction => (instruction.address, instruction.statement)) =
      .ok instructions := by
  rw [resolveAll, mapM_eq_ok_iff, List.forall₂_map_left_iff, List.forall₂_same]
  intro instruction _
  change resolveStatement table instruction.address instruction.statement = .ok instruction
  rw [resolveStatement, Instruction.statement, Shape.resolve_map]
  rfl

/-- The instructions of a layout are laid out as they are. -/
theorem layout_statements (laidOut : layout statements = .ok result) :
    layout (result.instructions.map Instruction.statement) = .ok result := by
  obtain ⟨table, tiles, becomes⟩ := layout_eq_ok laidOut
  have placed := tiles.place_statements
  have labels : labelsOf (place 0 (result.instructions.map Instruction.statement)) = labelsOf (place 0 statements) := by
    rw [placed, labelsOf_place tiles becomes, labelsOf, List.flatMap_map]
    rfl
  rw [layout_eq, labelTable, labels, ← labelTable, table, placed]
  simp only [bind, Except.bind, resolveAll_statements]
  rfl

end Layouts

section Operands

theorem lt_of_writeOperand {memory : Memory} {address value : Nat}
    (success : (writeOperand memory address value).fault = none) : value < UInt16.size := by
  by_contra wide
  rw [writeOperand, if_neg wide] at success
  cases success

/-- An instruction that is written has a word for its operand. -/
theorem Instruction.lt_of_write {instruction : Instruction} {framing : Framing Empty} {memory : Memory} {value : Nat}
    (success : (instruction.write memory).fault = none) (framed : instruction.shape.framing? = some framing)
    (payload : framing.payload? = some value) : value < UInt16.size := by
  rw [write_of_framing framed, writeFramed, ← Framing.payload?, payload] at success
  split at success
  · cases success
  split at success
  · cases success
  next start _ =>
    exact lt_of_writeOperand (Written.andThen_fault_eq_none_iff.1 success).2

theorem exists_write_of_writeAll {instructions : List Instruction} {memory : Memory}
    (success : (writeAll instructions memory).fault = none) {instruction : Instruction}
    (member : instruction ∈ instructions) : ∃ before, (instruction.write before).fault = none := by
  induction instructions generalizing memory with
  | nil => cases member
  | cons first rest ih =>
      obtain ⟨goesOn, success⟩ := Written.andThen_fault_eq_none_iff.1 success
      rcases List.mem_cons.1 member with rfl | member
      · exact ⟨memory, goesOn⟩
      · exact ih success member

/-- An argument stays canonical if an address takes the place of its label. -/
theorem Argument.Canonical.of_resolve {argument : Argument String} {resolved : Argument Empty}
    {find : String → Except Fault Nat} (canonical : argument.Canonical)
    (found : argument.resolve find = .ok resolved)
    (narrow : ∀ value, resolved.payload? = some value → value < UInt16.size) :
    (resolved.map Empty.elim : Argument String).Canonical := by
  cases canonical with
  | accumulator =>
      cases found
      exact .accumulator
  | immediate bound =>
      cases found
      exact .immediate bound
  | direct bound =>
      cases found
      exact .direct bound
  | label named =>
      obtain ⟨address, -, rfl⟩ := exists_of_map_eq_ok found
      exact .direct (Nat.lt_trans (narrow address rfl) (by decide))

theorem Shape.Canonical.of_resolve {shape : Shape String} {resolved : Shape Empty} {find : String → Except Fault Nat}
    (canonical : shape.Canonical) (found : shape.resolve find = .ok resolved)
    (narrow : ∀ framing value, resolved.framing? = some framing → framing.payload? = some value →
      value < UInt16.size) : (resolved.map Empty.elim : Shape String).Canonical := by
  cases canonical with
  | nullary kind =>
      cases found
      exact .nullary kind
  | jump canonical =>
      obtain ⟨target, named, found⟩ := exists_of_bind_eq_ok found
      cases found
      exact .jump (canonical.of_resolve named fun value => narrow _ value rfl)
  | not =>
      cases found
      exact .not
  | binary kind canonical =>
      obtain ⟨target, named, found⟩ := exists_of_bind_eq_ok found
      cases found
      exact .binary kind (canonical.of_resolve named fun value => narrow _ value rfl)
  | data bound =>
      cases found
      exact .data bound

end Operands

section Columns

open Numeral

theorem digit_ne_zero : ∀ value < 16, value ≠ 0 → digit value ≠ '0' := by
  decide

/-- No number but zero is written with a zero in front. -/
theorem head?_digits_ne_zero {radix : Radix} {number : Nat} (positive : 0 < number) :
    (digits radix.base number).head? ≠ some '0' := by
  have bounds := radix.base_bounds
  induction number using Nat.strongRecOn with
  | ind number ih =>
      rcases Nat.lt_or_ge number radix.base with small | large
      · rw [digits_of_lt small, List.head?_cons]
        intro zero
        exact digit_ne_zero number (by omega) (by omega) (Option.some.inj zero)
      · have quotient : 0 < number / radix.base := Nat.div_pos large (by omega)
        have front := ih _ (Nat.div_lt_self positive bounds.1) quotient
        rw [digits_of_le bounds.1 large]
        cases written : digits radix.base (number / radix.base) with
        | nil =>
            have value := radix.valueOf_digits (number / radix.base)
            rw [written] at value
            exact absurd value (Nat.ne_of_lt quotient)
        | cons c rest =>
            rw [written] at front
            exact front

theorem showsAddress_padded (address : Nat) : ShowsAddress (padded 16 4 address) address := by
  have written : ∃ count, padded 16 4 address = List.replicate count '0' ++ digits Radix.hexadecimal.base address :=
    ⟨_, rfl⟩
  have length := length_padded 16 4 address
  refine ⟨?_, ?_, by omega, ?_⟩
  · obtain ⟨count, written⟩ := written
    intro c member
    rw [written, List.mem_append] at member
    rcases member with zero | digit
    · rw [List.eq_of_mem_replicate zero]
      decide
    · exact Radix.mem_alphabet_of_mem_digits digit
  · obtain ⟨count, written⟩ := written
    rw [written, Radix.valueOf_replicate_zero_append, Radix.valueOf_digits]
  · intro long
    have full : (digits 16 address).length = (padded 16 4 address).length := by omega
    have same : padded 16 4 address = digits 16 address := by
      rw [padded, List.leftpad, Nat.sub_eq_zero_of_le (by omega)]
      rfl
    rw [same]
    refine @head?_digits_ne_zero .hexadecimal address (Nat.pos_of_ne_zero ?_)
    rintro rfl
    revert long
    decide

end Columns

section Lines

variable {instruction : Instruction} {instructions : List Instruction}

theorem linesOf_cons {line : List Char} (unbroken : '\n' ∉ line) (rest : List Char) :
    linesOf (String.ofList (line ++ '\n' :: rest)) = line :: linesOf (String.ofList rest) := by
  have inside : ∀ c ∈ line, (c == '\n') = false := by
    intro c member
    rw [beq_eq_false_iff_ne]
    rintro rfl
    exact unbroken member
  rw [linesOf, linesOf, String.toList_ofList, String.toList_ofList, List.splitOn,
    List.splitOnP_append_cons_of_forall_mem inside _ (beq_self_eq_true _), ← List.splitOn,
    List.dropLast_cons_of_ne_nil (List.splitOn_ne_nil _ _)]

theorem unbroken_repr (value : Nat) : '\n' ∉ value.repr.toList := by
  rw [Nat.toList_repr]
  intro member
  exact absurd (Nat.isDigit_of_mem_toDigits (by decide) (by decide) member) (by decide)

theorem Argument.unbroken_text (argument : Argument Empty) : '\n' ∉ (argument.text Empty.elim).toList := by
  cases argument with
  | accumulator => decide
  | immediate value => simpa [text, toString] using unbroken_repr value
  | direct address => exact unbroken_repr address
  | label name => exact name.elim

theorem unbroken_mnemonic (opcode : Opcode) : '\n' ∉ opcode.mnemonic.toList := by
  cases opcode <;> decide

theorem unbroken_name (register : Register) : '\n' ∉ register.name.toList := by
  cases register <;> decide

theorem Shape.unbroken_text (shape : Shape Empty) : '\n' ∉ (shape.text Empty.elim).toList := by
  cases shape with
  | nullary opcode => exact unbroken_mnemonic opcode
  | data value => simpa [text, toString] using unbroken_repr value
  | binary opcode register argument =>
      simp [text, toString, unbroken_mnemonic, unbroken_name, argument.unbroken_text]
  | unary opcode register argument =>
      cases register <;> cases argument <;>
        simp [text, unbroken_mnemonic, unbroken_name, Argument.unbroken_text]

theorem unbroken_labelText {labels : List String} (named : ∀ label ∈ labels, IsName label) :
    '\n' ∉ (labelText labels).toList := by
  have names : ∀ label ∈ labels, '\n' ∉ label.toList := by
    intro label member line
    exact absurd ((named label member).word '\n' line) (by decide)
  simpa [labelText, toString] using names

theorem Instruction.text_statement (instruction : Instruction) :
    instruction.statement.text = labelText instruction.labels ++ instruction.shape.text Empty.elim := by
  rw [Statement.text, statement, Shape.text_map]
  rfl

theorem Instruction.toList_text (instruction : Instruction) :
    instruction.text.toList =
      Numeral.padded 16 4 instruction.address ++ ' ' :: ' ' :: instruction.statement.text.toList := by
  simp [text, text_statement, Numeral.address]

/-- The column of a line is its address, and its rest is the statement. -/
theorem Instruction.columns (instruction : Instruction) :
    addressColumn instruction.text.toList = Numeral.padded 16 4 instruction.address ∧
      withoutColumn instruction.text.toList = instruction.statement.text.toList := by
  have digits : ∀ c ∈ Numeral.padded 16 4 instruction.address, decide (c ∈ Radix.hexadecimal.alphabet) = true :=
    fun c member => decide_eq_true ((showsAddress_padded _).digits c member)
  have stop : decide (' ' ∈ Radix.hexadecimal.alphabet) = false := by decide
  rw [toList_text, addressColumn, withoutColumn, List.takeWhile_append_of_pos digits,
    List.dropWhile_append_of_pos digits, List.takeWhile_cons_of_neg (by simp [stop]),
    List.dropWhile_cons_of_neg (by simp [stop]), List.append_nil]
  exact ⟨rfl, rfl⟩

theorem Instruction.lists (instruction : Instruction) : Lists instruction.text.toList instruction := by
  obtain ⟨column, rest⟩ := instruction.columns
  refine ⟨?_, ?_⟩
  · rw [column]
    exact showsAddress_padded _
  · rw [column, rest, toList_text]

/-- A listing has one line for each instruction. -/
theorem linesOf_listing (named : ∀ instruction ∈ instructions, ∀ label ∈ instruction.labels, IsName label) :
    linesOf (String.join (instructions.map fun instruction => instruction.text ++ "\n")) =
      instructions.map fun instruction => instruction.text.toList := by
  rw [← String.ofList_toList (s := String.join _), String.toList_join, List.flatMap_map]
  induction instructions with
  | nil => rfl
  | cons first rest ih =>
      obtain ⟨names, others⟩ := List.forall_mem_cons.1 named
      have column : '\n' ∉ Numeral.padded 16 4 first.address := fun member =>
        absurd ((showsAddress_padded _).digits _ member) (by decide)
      have unbroken : '\n' ∉ first.text.toList := by
        simp [Instruction.toList_text, Instruction.text_statement, column, unbroken_labelText names,
          first.shape.unbroken_text]
      rw [List.flatMap_cons, String.toList_append, List.append_assoc, List.map_cons, ← ih others]
      exact linesOf_cons unbroken _

/-- Lines of text are texts one after the other, with a line break behind the last. -/
theorem exists_joined_of_lines (texts : List String) :
    ∃ whole tail, Joined texts whole ∧ (∀ c ∈ tail, Text.isBlank c = true) ∧
      texts.flatMap (fun text => text.toList ++ ['\n']) = whole ++ tail := by
  have newline : ∀ c ∈ ['\n'], Text.isBlank c = true := List.all_eq_true.1 rfl
  induction texts with
  | nil => exact ⟨[], [], .none, List.forall_mem_nil _, rfl⟩
  | cons text rest ih =>
      cases rest with
      | nil => exact ⟨text.toList, ['\n'], .last, newline, by simp⟩
      | cons next others =>
          obtain ⟨whole, tail, joined, blank, lines⟩ := ih
          refine ⟨text.toList ++ (['\n'] ++ whole), tail, .more (List.cons_ne_nil _ _) newline joined, blank, ?_⟩
          rw [List.flatMap_cons, lines]
          simp

theorem exists_statement_of_becomes {table : LabelTable} {statements : List Statement}
    (becomes : List.Forall₂ (Statement.Becomes table) statements instructions) (member : instruction ∈ instructions) :
    ∃ statement ∈ statements, statement.Becomes table instruction := by
  induction becomes with
  | nil => cases member
  | @cons statement _ statements _ first _ ih =>
      rcases List.mem_cons.1 member with rfl | member
      · exact ⟨statement, List.mem_cons_self, first⟩
      · obtain ⟨other, listed, becomes⟩ := ih member
        exact ⟨other, List.mem_cons_of_mem _ listed, becomes⟩

/-- The instructions of an assembled program are statements that a program can consist of. -/
theorem canonical_of_assemble {memoryBytes : Option Nat} {source : String} {program : Program}
    (assembled : Program.assemble memoryBytes source = .ok program) :
    ∀ instruction ∈ program.instructions, instruction.statement.Canonical := by
  obtain ⟨statements, parsed, laidOut, written⟩ := Program.assemble_eq_ok_iff.1 assembled
  obtain ⟨-, -, becomes⟩ := layout_eq_ok laidOut
  intro instruction member
  obtain ⟨statement, listed, becomes⟩ := exists_statement_of_becomes becomes member
  obtain ⟨named, shape⟩ := (Syntax.parse_eq_ok_iff.1 parsed).canonical statement listed
  obtain ⟨before, success⟩ := exists_write_of_writeAll (congrArg Written.fault written) member
  exact ⟨by rwa [Instruction.statement, becomes.labels],
    shape.of_resolve becomes.shape fun framing value => Instruction.lt_of_write success⟩

end Lines

/-- A listing without its column of addresses is a text of the program: it is assembled to the same instructions, the
    same labels and the same memory, and so it has the same listing.  Every line of a listing starts with the address
    of its instruction. -/
theorem listing_reassembles {memoryBytes : Option Nat} {source : String} {program : Program}
    (assembled : Program.assemble memoryBytes source = .ok program) :
    Program.assemble memoryBytes (bareListing program.listing) = .ok program ∧
      List.Forall₂ Lists (linesOf program.listing) program.instructions := by
  have canonical := canonical_of_assemble assembled
  obtain ⟨statements, parsed, laidOut, written⟩ := Program.assemble_eq_ok_iff.1 assembled
  have lines := linesOf_listing fun instruction member => (canonical instruction member).named
  rw [← Program.listing] at lines
  constructor
  · obtain ⟨whole, tail, joined, blank, split⟩ :=
      exists_joined_of_lines (program.instructions.map fun instruction => instruction.statement.text)
    have bare : (bareListing program.listing).toList = whole ++ tail := by
      rw [bareListing, String.toList_ofList, lines, ← split, List.flatMap_map, List.flatMap_map]
      exact List.flatMap_congr fun instruction _ => by rw [instruction.columns.2]
    have reads : Syntax.ProgramText (whole ++ tail) (program.instructions.map Instruction.statement) :=
      Syntax.program_of_joined (List.forall_mem_map.2 canonical) (by rwa [List.map_map]) blank
    rw [← bare] at reads
    exact Program.assemble_eq_ok_iff.2
      ⟨_, Syntax.parse_eq_ok_iff.2 reads, layout_statements laidOut, written⟩
  · rw [lines, List.forall₂_map_left_iff, List.forall₂_same]
    exact fun instruction _ => instruction.lists

/-- Two labels at one address, a jump forward and a jump back, in more memory than the program needs. -/
def untidySource : String := "@a @b: JMZ r1,@end ;x\n jump @b @end not r2"

def untidyProgram : Program where
  instructions := [⟨["a", "b"], .binary .jumpIfZero .r1 (.direct 6), 0⟩,
    ⟨[], .unary .jump none (some (.direct 0)), 3⟩, ⟨["end"], .unary .not (some .r2) none, 6⟩]
  labels := [("a", 0), ("b", 0), ("end", 6)]
  memory := .ofBytes [0x36, 0, 6, 0x22, 0, 0, 0xC8, 0]

def tidySource : String := "@a: @b: jmz R1, 6\njmp 0\n@end: not R2\n"

theorem listing_reassembles_tidy :
    Program.assemble (some 8) untidySource = .ok untidyProgram ∧ bareListing untidyProgram.listing = tidySource ∧
      Program.assemble (some 8) tidySource = .ok untidyProgram := by
  have assembled : Program.assemble (some 8) untidySource = .ok untidyProgram := by cbv
  have bare : bareListing untidyProgram.listing = tidySource := by decide +kernel
  exact ⟨assembled, bare, bare ▸ (listing_reassembles assembled).1⟩

end WordMachine.Assembly
