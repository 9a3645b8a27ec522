import Mathlib
import WordMachine.Assembly.Program
import WordMachine.Proofs.Assembly.Labels

/-! # Resolved programs

A program whose labels can be resolved becomes one instruction for each statement, one behind the other.  Each
reference to a label becomes the address of the one statement that carries it, and nothing else changes.
-/

namespace WordMachine.Assembly

/-- The address behind the statements before an index. -/
def addressAt (statements : List Statement) (index : Nat) : Nat :=
  ((statements.take index).map (·.shape.size)).sum

/-- The address of the one statement that carries a label. -/
def StandsFor (statements : List Statement) (name : String) (address : Nat) : Prop :=
  ∃ index, (∀ other, (∃ statement, statements[other]? = some statement ∧ name ∈ statement.labels) ↔ other = index) ∧
    address = addressAt statements index

/-- An argument as it is written, and what it is resolved to: labels become addresses. -/
inductive Argument.Resolves (statements : List Statement) : Argument String → Argument Empty → Prop where
  | accumulator : Resolves statements .accumulator .accumulator
  | immediate (value : Nat) : Resolves statements (.immediate value) (.immediate value)
  | direct (address : Nat) : Resolves statements (.direct address) (.direct address)
  | label {name : String} {address : Nat} (stands : StandsFor statements name address) :
    Resolves statements (.label name) (.direct address)

inductive Shape.Resolves (statements : List Statement) : Shape String → Shape Empty → Prop where
  | nullary (opcode : Opcode) : Resolves statements (.nullary opcode) (.nullary opcode)
  | unary (opcode : Opcode) (register : Option Register) {written : Option (Argument String)}
    {resolved : Option (Argument Empty)} (argument : Option.Rel (Argument.Resolves statements) written resolved) :
    Resolves statements (.unary opcode register written) (.unary opcode register resolved)
  | binary (opcode : Opcode) (register : Register) {written : Argument String} {resolved : Argument Empty}
    (argument : Argument.Resolves statements written resolved) :
    Resolves statements (.binary opcode register written) (.binary opcode register resolved)
  | data (value : Nat) : Resolves statements (.data value) (.data value)

/-- The instruction that the statement at an index of a program becomes. -/
structure Statement.LaidOut (statements : List Statement) (index : Nat) (statement : Statement)
    (instruction : Instruction) : Prop where
  labels : instruction.labels = statement.labels
  shape : statement.shape.Resolves statements instruction.shape
  size : instruction.size = statement.shape.size
  address : instruction.address = addressAt statements index

/-- The instructions of a program, one for each of its statements. -/
structure IsLayout (statements : List Statement) (instructions : List Instruction) : Prop where
  length : instructions.length = statements.length
  laidOut : ∀ index (inside : index < statements.length),
    statements[index].LaidOut statements index instructions[index]
  total : programSize instructions = (instructions.map Instruction.size).sum

namespace Tiles

variable {start finish : Nat} {instructions : List Instruction}

theorem sum_sizes (tiles : Tiles start finish instructions) :
    start + (instructions.map Instruction.size).sum = finish := by
  induction instructions generalizing start with
  | nil => exact tiles
  | cons first rest ih =>
      obtain ⟨rfl, others⟩ := tiles
      rw [List.map_cons, List.sum_cons, ← Nat.add_assoc]
      exact ih others

/-- An instruction stands behind all those before it. -/
theorem address_eq_sum (tiles : Tiles start finish instructions) {index : Nat}
    (inside : index < instructions.length) :
    instructions[index].address = start + ((instructions.take index).map Instruction.size).sum := by
  induction instructions generalizing start index with
  | nil => simp at inside
  | cons first rest ih =>
      obtain ⟨rfl, others⟩ := tiles
      cases index with
      | zero => simp
      | succ index =>
          rw [List.length_cons, Nat.succ_lt_succ_iff] at inside
          rw [List.getElem_cons_succ, List.take_succ_cons, List.map_cons, List.sum_cons, ← Nat.add_assoc]
          exact ih others inside

end Tiles

/-- No two statements carry the same label. -/
theorem index_unique {statements : List Statement} (distinct : (definitions statements).Nodup) {name : String}
    {i j : Nat} {first second : Statement} (atFirst : statements[i]? = some first)
    (atSecond : statements[j]? = some second) (onFirst : name ∈ first.labels) (onSecond : name ∈ second.labels) :
    i = j := by
  obtain ⟨insideFirst, rfl⟩ := List.getElem?_eq_some_iff.1 atFirst
  obtain ⟨insideSecond, rfl⟩ := List.getElem?_eq_some_iff.1 atSecond
  have apart := List.pairwise_iff_getElem.1 (List.nodup_flatMap.1 distinct).2
  rcases Nat.lt_trichotomy i j with before | same | behind
  · exact absurd onSecond (apart i j _ _ before onFirst)
  · exact same
  · exact absurd onFirst (apart j i _ _ behind onSecond)

section Becomes

variable {table : LabelTable} {statements : List Statement} {instructions : List Instruction}
  (becomes : List.Forall₂ (Statement.Becomes table) statements instructions)

include becomes

theorem map_size_of_becomes : instructions.map Instruction.size = statements.map (·.shape.size) := by
  induction becomes with
  | nil => rfl
  | cons first _ ih =>
      rw [List.map_cons, List.map_cons, ih, Instruction.size, Shape.size_of_resolve first.shape]

theorem labels_of_becomes {index : Nat} {instruction : Instruction}
    (found : instructions[index]? = some instruction) :
    ∃ statement, statements[index]? = some statement ∧ statement.labels = instruction.labels := by
  obtain ⟨inside, rfl⟩ := List.getElem?_eq_some_iff.1 found
  have lengths := becomes.length_eq
  have first := becomes.get (i := index) (by omega) inside
  exact ⟨statements[index], List.getElem?_eq_getElem (by omega), first.labels.symm⟩

theorem address_of_becomes {finish : Nat} (tiles : Tiles 0 finish instructions) {index : Nat}
    {instruction : Instruction} (found : instructions[index]? = some instruction) :
    instruction.address = addressAt statements index := by
  obtain ⟨inside, rfl⟩ := List.getElem?_eq_some_iff.1 found
  rw [tiles.address_eq_sum inside, Nat.zero_add, addressAt, List.map_take, map_size_of_becomes becomes,
    List.map_take]

end Becomes

section Laid

variable {statements : List Statement} {result : Layout} (success : layout statements = .ok result)

include success

theorem definitions_nodup_of_layout : (definitions statements).Nodup :=
  ((exists_layout_iff statements).1 ⟨result, success⟩).1

/-- The table of a layout knows a label by the address of the instruction that carries it. -/
theorem address?_eq_find? (name : String) :
    result.labels.address? name = (result.instructions.find? (name ∈ ·.labels)).map Instruction.address := by
  obtain ⟨table, tiles, becomes⟩ := layout_eq_ok success
  rw [LabelTable.address?, LabelTable.extend_eq_ok table, List.nil_append, labelsOf_place tiles becomes,
    lookup_labels]

theorem address?_eq_some_iff_carried (name : String) (address : Nat) :
    result.labels.address? name = some address ↔
      ∃ instruction ∈ result.instructions, name ∈ instruction.labels ∧ instruction.address = address := by
  obtain ⟨-, -, becomes⟩ := layout_eq_ok success
  rw [address?_eq_find? success, Option.map_eq_some_iff]
  constructor
  · rintro ⟨instruction, found, here⟩
    exact ⟨instruction, List.mem_of_find?_eq_some found, by simpa using List.find?_some found, here⟩
  · rintro ⟨instruction, member, carries, here⟩
    refine ⟨instruction, ?_, here⟩
    obtain ⟨index, found⟩ := List.mem_iff_getElem?.1 member
    cases first : result.instructions.find? (name ∈ ·.labels) with
    | none => exact absurd carries (by simpa using List.find?_eq_none.1 first instruction member)
    | some other =>
        have carriesOther : name ∈ other.labels := by simpa using List.find?_some first
        obtain ⟨otherIndex, otherFound⟩ := List.mem_iff_getElem?.1 (List.mem_of_find?_eq_some first)
        obtain ⟨statement, here, labels⟩ := labels_of_becomes becomes found
        obtain ⟨otherStatement, otherHere, otherLabels⟩ := labels_of_becomes becomes otherFound
        have same : index = otherIndex := index_unique (definitions_nodup_of_layout success) here otherHere
          (labels ▸ carries) (otherLabels ▸ carriesOther)
        rw [← same, found] at otherFound
        exact otherFound.symm

theorem standsFor_of_resolve {name : String} {address : Nat} (resolved : result.labels.resolve name = .ok address) :
    StandsFor statements name address := by
  obtain ⟨-, tiles, becomes⟩ := layout_eq_ok success
  obtain ⟨instruction, member, carries, rfl⟩ :=
    (address?_eq_some_iff_carried success name address).1 (LabelTable.address?_of_resolve resolved)
  obtain ⟨index, found⟩ := List.mem_iff_getElem?.1 member
  obtain ⟨statement, here, labels⟩ := labels_of_becomes becomes found
  refine ⟨index, fun other => ⟨?_, ?_⟩, address_of_becomes becomes tiles found⟩
  · rintro ⟨otherStatement, otherHere, carriesOther⟩
    exact index_unique (definitions_nodup_of_layout success) otherHere here carriesOther (labels ▸ carries)
  · rintro rfl
    exact ⟨statement, here, labels ▸ carries⟩

theorem argument_resolves {written : Argument String} {resolved : Argument Empty}
    (found : written.resolve result.labels.resolve = .ok resolved) : written.Resolves statements resolved := by
  cases written with
  | accumulator =>
      cases found
      exact .accumulator
  | immediate value =>
      cases found
      exact .immediate value
  | direct address =>
      cases found
      exact .direct address
  | label name =>
      obtain ⟨address, named, rfl⟩ := exists_of_map_eq_ok found
      exact .label (standsFor_of_resolve success named)

theorem shape_resolves {written : Shape String} {resolved : Shape Empty}
    (found : written.resolve result.labels.resolve = .ok resolved) : written.Resolves statements resolved := by
  cases written with
  | nullary opcode =>
      cases found
      exact .nullary opcode
  | data value =>
      cases found
      exact .data value
  | unary opcode register argument =>
      cases argument with
      | none =>
          cases found
          exact .unary opcode register .none
      | some argument =>
          obtain ⟨target, named, found⟩ := exists_of_bind_eq_ok found
          cases found
          exact .unary opcode register (.some (argument_resolves success named))
  | binary opcode register argument =>
      obtain ⟨target, named, found⟩ := exists_of_bind_eq_ok found
      cases found
      exact .binary opcode register (argument_resolves success named)

theorem isLayout_of_layout : IsLayout statements result.instructions := by
  obtain ⟨-, tiles, becomes⟩ := layout_eq_ok success
  have lengths := becomes.length_eq
  refine ⟨lengths.symm, fun index inside => ?_, ?_⟩
  · have first := becomes.get inside (by omega)
    exact ⟨first.labels, shape_resolves success first.shape, Shape.size_of_resolve first.shape,
      address_of_becomes becomes tiles (List.getElem?_eq_getElem (by omega))⟩
  · have total := tiles.sum_sizes
    omega

end Laid

theorem resolve_eq_error_iff (statements : List Statement) (fault : Fault) :
    resolve statements = .error fault ↔ layout statements = .error fault := by
  rw [resolve]
  cases layout statements <;> simp [Except.map]

theorem exists_resolve_iff (statements : List Statement) :
    (∃ instructions, resolve statements = .ok instructions) ↔ ∃ result, layout statements = .ok result := by
  rw [resolve]
  cases layout statements <;> simp [Except.map]

/-- Labels are resolved exactly.  A program resolves if and only if no label is attached twice and none is missing,
    its instructions are those of its statements at their addresses, and a program that does not resolve is refused
    for the first label that is attached again, or else for the first one that is missing.  An assembled program
    knows the labels of its instructions and no others. -/
theorem labels_resolve_exactly (statements : List Statement) :
    ((∃ instructions, resolve statements = .ok instructions) ↔
        (definitions statements).Nodup ∧ ∀ name ∈ references statements, name ∈ definitions statements) ∧
      (∀ instructions, resolve statements = .ok instructions → IsLayout statements instructions) ∧
      (∀ fault, resolve statements = .error fault ↔
        (∃ name, fault = .duplicateLabel name ∧ FirstRepeated (definitions statements) name) ∨
          (definitions statements).Nodup ∧ ∃ name, fault = .undefinedLabel name ∧
            FirstMissing (references statements) (definitions statements) name) ∧
      ∀ memoryBytes source program, Program.assemble memoryBytes source = .ok program → ∀ name address,
        program.labelAddress? name = some address ↔
          ∃ instruction ∈ program.instructions, name ∈ instruction.labels ∧ instruction.address = address := by
  refine ⟨?_, ?_, ?_, ?_⟩
  · rw [exists_resolve_iff, exists_layout_iff]
  · intro instructions resolved
    obtain ⟨result, laidOut, rfl⟩ := exists_of_map_eq_ok resolved
    exact isLayout_of_layout laidOut
  · intro fault
    rw [resolve_eq_error_iff, layout_eq_error_iff]
  · intro memoryBytes source program assembled name address
    obtain ⟨statements, -, laidOut, -⟩ := Program.assemble_eq_ok_iff.1 assembled
    exact address?_eq_some_iff_carried laidOut name address

/-- A jump forward and a jump back. -/
def crossingSource : String := "@top nop jmz r1, @end jmp @top @end: halt"

def crossingStatements : List Statement :=
  [⟨["top"], .nullary .nop⟩, ⟨[], .binary .jumpIfZero .r1 (.label "end")⟩,
   ⟨[], .unary .jump none (some (.label "top"))⟩, ⟨["end"], .nullary .halt⟩]

def crossingProgram : Program where
  instructions := [⟨["top"], .nullary .nop, 0⟩, ⟨[], .binary .jumpIfZero .r1 (.direct 7), 1⟩,
    ⟨[], .unary .jump none (some (.direct 0)), 4⟩, ⟨["end"], .nullary .halt, 7⟩]
  labels := [("top", 0), ("end", 7)]
  memory := .ofBytes [0x00, 0x36, 0, 7, 0x22, 0, 0, 0x10]

theorem labels_resolve_exactly_crossing :
    resolve crossingStatements = .ok crossingProgram.instructions ∧
      IsLayout crossingStatements crossingProgram.instructions ∧
      Program.assemble none crossingSource = .ok crossingProgram ∧
      crossingProgram.labelAddress? "end" = some 7 := by
  have resolved : resolve crossingStatements = .ok crossingProgram.instructions := by decide
  have assembled : Program.assemble none crossingSource = .ok crossingProgram := by cbv
  obtain ⟨-, success, -, known⟩ := labels_resolve_exactly crossingStatements
  refine ⟨resolved, success _ resolved, assembled, ?_⟩
  exact (known none crossingSource crossingProgram assembled "end" 7).2
    ⟨⟨["end"], .nullary .halt, 7⟩, by simp [crossingProgram], by simp, rfl⟩

end WordMachine.Assembly
