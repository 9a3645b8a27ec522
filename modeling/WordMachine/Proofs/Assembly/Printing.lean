import WordMachine.Proofs.Assembly.Recognition

/-! # Statements as they are written

A statement has a text, and the grammar has many more texts for it: other spellings, other cases of letters, other
blanks.  Whatever text the parser reads a statement from, the statement is canonical; and a canonical statement is
read back from the text that it is written as, between any blanks.
-/

namespace WordMachine.Assembly

/-- What the grammar allows as the name of a label. -/
structure IsName (name : String) : Prop where
  nonempty : name.toList ≠ []
  word : ∀ c ∈ name.toList, Grammar.isWord c = true

inductive Argument.Canonical : Argument String → Prop where
  | accumulator : Canonical .accumulator
  | immediate {value : Nat} (bound : value < UInt64.size) : Canonical (.immediate value)
  | direct {address : Nat} (bound : address < UInt64.size) : Canonical (.direct address)
  | label {name : String} (named : IsName name) : Canonical (.label name)

inductive Shape.Canonical : Shape String → Prop where
  | nullary {opcode : Opcode} (kind : opcode ∈ Syntax.nullaryOpcodes) : Canonical (.nullary opcode)
  | jump {argument : Argument String} (canonical : argument.Canonical) :
      Canonical (.unary .jump none (some argument))
  | not {register : Register} : Canonical (.unary .not (some register) none)
  | binary {opcode : Opcode} {register : Register} {argument : Argument String}
      (kind : opcode ∈ Syntax.binaryOpcodes) (canonical : argument.Canonical) :
      Canonical (.binary opcode register argument)
  | data {value : Nat} (bound : value < UInt64.size) : Canonical (.data value)

/-- A statement that a program can consist of. -/
structure Statement.Canonical (statement : Statement) : Prop where
  named : ∀ label ∈ statement.labels, IsName label
  shape : statement.shape.Canonical

/-- A statement as it is written, its labels in front. -/
def Statement.text (statement : Statement) : String :=
  labelText statement.labels ++ statement.shape.text id

/-- Texts one after the other, with a run of blanks between any two. -/
inductive Joined : List String → List Char → Prop where
  | none : Joined [] []
  | last {text : String} : Joined [text] text.toList
  | more {text next : String} {others : List String} {blanks whole : List Char} (nonempty : blanks ≠ [])
      (blank : ∀ c ∈ blanks, Text.isBlank c = true) (behind : Joined (next :: others) whole) :
      Joined (text :: next :: others) (text.toList ++ (blanks ++ whole))

namespace Syntax

open Parsing

/-- Nothing, or else a blank, stands at the start of a text. -/
def Apart (rest : List Char) : Prop := ∀ c, rest.head? = some c → Text.isBlank c = true

section Written

variable {rest : List Char}

theorem apart_of_blanks {blanks : List Char} (nonempty : blanks ≠ [])
    (blank : ∀ c ∈ blanks, Text.isBlank c = true) : Apart (blanks ++ rest) := by
  cases blanks with
  | nil => exact absurd rfl nonempty
  | cons first blanks =>
      intro c head
      cases head
      exact blank _ List.mem_cons_self

/-- What stands in front of a blank ends there if it has no blanks in it. -/
theorem Apart.ends {member : Char → Bool} (apart : Apart rest) (solid : ∀ c, member c = true → Solid c) (c : Char)
    (head : rest.head? = some c) : member c = false := by
  apply Bool.eq_false_iff.2
  intro belongs
  have visible := (solid c belongs).visible
  rw [apart c head] at visible
  cases visible

/-- The decimal digits of a number are read as the number. -/
theorem literal_repr {value : Nat} (bound : value < UInt64.size) (apart : Apart rest) :
    Literal (value.repr.toList ++ rest) value rest := by
  rw [Nat.toList_repr]
  have same : number (Nat.toDigits 10 value) = value := Nat.ofDigitChars_ten_toDigits
  have digits : ∀ c ∈ Nat.toDigits 10 value, c.isDigit = true := fun _ member =>
    Nat.isDigit_of_mem_toDigits (by decide) (by decide) member
  have read := Literal.mk ⟨rfl, Nat.toDigits_ne_nil, digits, apart.ends fun _ => solid_of_isDigit⟩ (by rwa [same])
  rwa [same] at read

theorem label_name {name : String} (named : IsName name)
    (ended : ∀ c, rest.head? = some c → Grammar.isWord c = false) :
    Label ('@' :: (name.toList ++ rest)) name rest := by
  have read := Label.mk ⟨rfl, named.nonempty, named.word, ended⟩
  rwa [String.ofList_toList] at read

theorem register_name (register : Register) (rest : List Char) :
    RegisterName (register.name.toList ++ rest) register rest :=
  .mk (spelled_name_iff.1 ⟨rfl, rfl⟩)

theorem word_of_mem {words : List String} {spelling : String} (member : spelling ∈ words) (rest : List Char) :
    Word words (spelling.toList ++ rest) rest :=
  ⟨spelling, member, _, rfl, rfl⟩

theorem mnemonic_mem_spellings (opcode : Opcode) : opcode.mnemonic ∈ spellings opcode := by
  cases opcode <;> simp [Opcode.mnemonic, spellings]

theorem gap_space (rest : List Char) : Gap (' ' :: rest) rest := .single (.space (by decide))

theorem argument_text {argument : Argument String} (canonical : argument.Canonical) (apart : Apart rest) :
    ArgumentText ((argument.text id).toList ++ rest) argument rest := by
  cases canonical with
  | accumulator => exact .accumulator (register_name .r0 rest)
  | @immediate value bound =>
      have split : ((Argument.immediate value).text id).toList ++ rest = '#' :: (value.repr.toList ++ rest) := by
        simp [Argument.text, toString]
      rw [split]
      exact .immediate (literal_repr bound apart)
  | direct bound => exact .direct (literal_repr bound apart)
  | @label name named =>
      have split : ((Argument.label name).text id).toList ++ rest = '@' :: (name.toList ++ rest) := by
        simp [Argument.text]
      rw [split]
      exact .label (label_name named (apart.ends fun _ => solid_of_isWord))

theorem shape_text {shape : Shape String} (canonical : shape.Canonical) (apart : Apart rest) :
    Body ((shape.text id).toList ++ rest) shape rest := by
  cases canonical with
  | nullary kind => exact .nullary kind (word_of_mem (mnemonic_mem_spellings _) rest)
  | @jump argument canonical =>
      have split : ((Shape.unary .jump none (some argument)).text id).toList ++ rest =
          Opcode.jump.mnemonic.toList ++ (' ' :: ((argument.text id).toList ++ rest)) := by
        simp [Shape.text]
      rw [split]
      exact .jump (word_of_mem (mnemonic_mem_spellings .jump) _) (gap_space _) (argument_text canonical apart)
  | @not register =>
      have split : ((Shape.unary .not (some register) none).text (id : String → String)).toList ++ rest =
          Opcode.not.mnemonic.toList ++ (' ' :: (register.name.toList ++ rest)) := by
        simp [Shape.text]
      rw [split]
      exact .not (word_of_mem (mnemonic_mem_spellings .not) _) (gap_space _) (register_name register rest)
  | @binary opcode register argument kind canonical =>
      have split : ((Shape.binary opcode register argument).text id).toList ++ rest = opcode.mnemonic.toList ++
          (' ' :: (register.name.toList ++ (',' :: ' ' :: ((argument.text id).toList ++ rest)))) := by
        simp [Shape.text, toString]
      rw [split]
      exact .binary kind (word_of_mem (mnemonic_mem_spellings opcode) _) (gap_space _) (register_name register _)
        (.comma .refl (gap_space _).to_reflTransGen) (argument_text canonical apart)
  | @data value bound =>
      have split : ((Shape.data value).text (id : String → String)).toList ++ rest =
          "mem".toList ++ (' ' :: (value.repr.toList ++ rest)) := by
        simp [Shape.text, toString]
      rw [split]
      exact .data (word_of_mem (by simp [dataSpellings]) _) (gap_space _) (literal_repr bound apart)

theorem labels_text {labels : List String} (named : ∀ label ∈ labels, IsName label) (rest : List Char) :
    LabelDefinitions ((labelText labels).toList ++ rest) labels rest := by
  induction labels with
  | nil => exact .none
  | cons name names ih =>
      obtain ⟨first, others⟩ := List.forall_mem_cons.1 named
      have split : (labelText (name :: names)).toList ++ rest =
          '@' :: (name.toList ++ (':' :: ' ' :: ((labelText names).toList ++ rest))) := by
        simp [labelText, toString]
      rw [split]
      have label : Label ('@' :: (name.toList ++ (':' :: ' ' :: ((labelText names).toList ++ rest)))) name
          (':' :: ' ' :: ((labelText names).toList ++ rest)) :=
        label_name first fun c head => by
          cases head
          rfl
      exact .more (.mk label .present (gap_space _).to_reflTransGen) (ih others)

theorem statement_text {statement : Statement} (canonical : statement.Canonical) (apart : Apart rest) :
    StatementText (statement.text.toList ++ rest) statement rest := by
  rw [Statement.text, String.toList_append, List.append_assoc]
  exact .mk (labels_text canonical.named _) (shape_text canonical.shape apart)

theorem blanks_of_run {run : List Char} (blank : ∀ c ∈ run, Text.isBlank c = true) : Blanks run [] := by
  cases run with
  | nil => exact .refl
  | cons c run =>
      have gap : Gap (c :: run ++ []) [] := gap_of_run (List.cons_ne_nil _ _) blank
      rw [List.append_nil] at gap
      exact gap.to_reflTransGen

/-- The text behind the first of some statements that are written one after the other. -/
theorem exists_others_of_joined {first : Statement} {others : List Statement} {whole tail : List Char}
    (canonical : ∀ statement ∈ first :: others, statement.Canonical)
    (joined : Joined ((first :: others).map Statement.text) whole) (blank : ∀ c ∈ tail, Text.isBlank c = true) :
    ∃ behind, whole ++ tail = first.text.toList ++ behind ∧ Apart behind ∧ Others behind others := by
  -- What follows a statement has to be known before the statement can be read.
  induction others generalizing first whole with
  | nil =>
      cases joined
      exact ⟨tail, rfl, fun c head => blank c (List.mem_of_mem_head? head), .done (blanks_of_run blank)⟩
  | cons next others ih =>
      cases joined with
      | @more _ _ _ blanks whole nonempty between joined =>
          obtain ⟨-, canonical⟩ := List.forall_mem_cons.1 canonical
          obtain ⟨behind, split, apart, others⟩ := ih canonical joined
          refine ⟨blanks ++ (whole ++ tail), by simp, apart_of_blanks nonempty between, ?_⟩
          rw [split]
          exact .next (gap_of_run nonempty between) (statement_text (canonical _ List.mem_cons_self) apart) others

/-- Statements that are written one after the other are a program. -/
theorem program_of_joined {statements : List Statement} {whole tail : List Char}
    (canonical : ∀ statement ∈ statements, statement.Canonical) (joined : Joined (statements.map Statement.text) whole)
    (blank : ∀ c ∈ tail, Text.isBlank c = true) : ProgramText (whole ++ tail) statements := by
  cases statements with
  | nil =>
      cases joined
      exact .empty (blanks_of_run blank)
  | cons first others =>
      obtain ⟨behind, split, apart, others⟩ := exists_others_of_joined canonical joined blank
      rw [split]
      exact .statements .refl (statement_text (canonical _ List.mem_cons_self) apart) others

end Written

section Read

variable {input rest : List Char}

theorem Label.named {name : String} (label : Label input name rest) : IsName name := by
  obtain ⟨run⟩ := label
  exact ⟨by rw [String.toList_ofList]; exact run.nonempty, by rw [String.toList_ofList]; exact run.inside⟩

theorem Literal.lt {value : Nat} (literal : Literal input value rest) : value < UInt64.size := by
  obtain ⟨-, bound⟩ := literal
  exact bound

theorem ArgumentText.canonical {argument : Argument String} (text : ArgumentText input argument rest) :
    argument.Canonical := by
  cases text with
  | accumulator _ => exact .accumulator
  | immediate literal => exact .immediate literal.lt
  | direct literal => exact .direct literal.lt
  | label label => exact .label label.named

theorem Body.canonical {shape : Shape String} (body : Body input shape rest) : shape.Canonical := by
  cases body with
  | nullary kind _ => exact .nullary kind
  | data _ _ literal => exact .data literal.lt
  | jump _ _ operand => exact .jump operand.canonical
  | not _ _ _ => exact .not
  | binary kind _ _ _ _ text => exact .binary kind text.canonical

theorem LabelDefinitions.named {names : List String} (definitions : LabelDefinitions input names rest) :
    ∀ name ∈ names, IsName name := by
  induction definitions with
  | none => exact List.forall_mem_nil _
  | more first _ ih =>
      obtain ⟨label, -, -⟩ := first
      exact List.forall_mem_cons.2 ⟨label.named, ih⟩

theorem StatementText.canonical {statement : Statement} (text : StatementText input statement rest) :
    statement.Canonical := by
  obtain ⟨definitions, body⟩ := text
  exact ⟨definitions.named, body.canonical⟩

theorem Others.canonical {statements : List Statement} (others : Others input statements) :
    ∀ statement ∈ statements, statement.Canonical := by
  induction others with
  | done _ => exact List.forall_mem_nil _
  | next _ text _ ih => exact List.forall_mem_cons.2 ⟨text.canonical, ih⟩

/-- A program consists of canonical statements. -/
theorem ProgramText.canonical {statements : List Statement} (text : ProgramText input statements) :
    ∀ statement ∈ statements, statement.Canonical := by
  cases text with
  | empty _ => exact List.forall_mem_nil _
  | statements _ text others => exact List.forall_mem_cons.2 ⟨text.canonical, others.canonical⟩

end Read

end Syntax

/-- Printing and parsing are inverse.  Canonical statements are parsed from their texts with any blanks between them.
    All statements that are parsed from any text are canonical; so the texts of them are parsed as the same
    statements again. -/
theorem printing_inverts_parsing :
    (∀ statements : List Statement, (∀ statement ∈ statements, statement.Canonical) →
      ∀ printed : String, Joined (statements.map Statement.text) printed.toList →
        Grammar.parse printed = .ok statements) ∧
    ∀ source statements, Grammar.parse source = .ok statements →
      (∀ statement ∈ statements, statement.Canonical) ∧
        ∀ printed : String, Joined (statements.map Statement.text) printed.toList →
          Grammar.parse printed = .ok statements := by
  have reads : ∀ statements : List Statement, (∀ statement ∈ statements, statement.Canonical) →
      ∀ printed : String, Joined (statements.map Statement.text) printed.toList →
        Grammar.parse printed = .ok statements := by
    intro statements canonical printed joined
    have text := Syntax.program_of_joined canonical joined (List.forall_mem_nil _)
    rw [List.append_nil] at text
    exact Syntax.parse_eq_ok_iff.2 text
  refine ⟨reads, ?_⟩
  intro source statements parsed
  have canonical := (Syntax.parse_eq_ok_iff.1 parsed).canonical
  exact ⟨canonical, reads statements canonical⟩

/-- A loop that counts down and never stops. -/
def countdown : List Statement :=
  [⟨["again"], .binary .subtract .r1 (.immediate 1)⟩, ⟨[], .unary .jump none (some (.label "again"))⟩]

def countdownSource : String := "@again SUBTRACT r1 #01 ; one less\n JUMP @again"

theorem printing_inverts_parsing_countdown :
    (∀ statement ∈ countdown, statement.Canonical) ∧
      Grammar.parse "@again: sub R1, #1\n\tjmp @again" = .ok countdown := by
  have parsed : Grammar.parse countdownSource = .ok countdown := by cbv
  have canonical := (printing_inverts_parsing.2 countdownSource countdown parsed).1
  have texts : countdown.map Statement.text = ["@again: sub R1, #1", "jmp @again"] := by cbv
  have split : "@again: sub R1, #1\n\tjmp @again".toList =
      "@again: sub R1, #1".toList ++ (['\n', '\t'] ++ "jmp @again".toList) := by
    cbv
  refine ⟨canonical, printing_inverts_parsing.1 countdown canonical _ ?_⟩
  rw [texts, split]
  exact .more (by decide) (List.all_eq_true.1 rfl) .last

end WordMachine.Assembly
