import Mathlib.Data.List.Induction
import Mathlib.Data.List.Nodup
import WordMachine.Proofs.Assembly.Layout

/-! # Labels of a program

A program is laid out if no label is attached twice and every label that is referred to is attached.  A label that
is attached twice is reported before one that is missing, and of several the first in the order of the program.
-/

namespace WordMachine.Assembly

/-- The labels that a program attaches, in the order of the program. -/
def definitions (statements : List Statement) : List String := statements.flatMap Statement.labels

/-- The label that a statement's argument refers to. -/
def Shape.reference? : Shape String → Option String
  | .unary _ _ (some (.label name)) => some name
  | .binary _ _ (.label name) => some name
  | _ => none

def references (statements : List Statement) : List String := statements.filterMap (·.shape.reference?)

/-- The first name of a list that repeats an earlier one. -/
def FirstRepeated (names : List String) (name : String) : Prop :=
  ∃ before after, names = before ++ name :: after ∧ before.Nodup ∧ name ∈ before

/-- The first name of a list that is not known. -/
def FirstMissing (names known : List String) (name : String) : Prop :=
  ∃ before after, names = before ++ name :: after ∧ (∀ earlier ∈ before, earlier ∈ known) ∧ name ∉ known

section Names

variable {names known : List String}

theorem nodup_or_firstRepeated (names : List String) : names.Nodup ∨ ∃ name, FirstRepeated names name := by
  induction names using List.reverseRecOn with
  | nil => exact .inl .nil
  | append_singleton names last ih =>
      rcases ih with distinct | ⟨name, before, after, rfl, earlier⟩
      · by_cases again : last ∈ names
        · exact .inr ⟨last, names, [], rfl, distinct, again⟩
        · refine .inl (List.nodup_append.2 ⟨distinct, List.nodup_singleton last, ?_⟩)
          intro name member other single same
          rw [List.mem_singleton] at single
          exact again (single ▸ same ▸ member)
      · exact .inr ⟨name, before, after ++ [last], by simp, earlier⟩

theorem FirstMissing.not_forall {name : String} (missing : FirstMissing names known name) :
    ¬ ∀ name ∈ names, name ∈ known := by
  obtain ⟨before, after, rfl, -, absent⟩ := missing
  intro all
  exact absent (all name (by simp))

theorem firstMissing_cons_iff {first name : String} :
    FirstMissing (first :: names) known name ↔
      (first ∉ known ∧ name = first) ∨ (first ∈ known ∧ FirstMissing names known name) := by
  constructor
  · rintro ⟨before, after, parts, earlier, absent⟩
    cases before with
    | nil =>
        obtain ⟨rfl, -⟩ := List.cons.inj parts
        exact .inl ⟨absent, rfl⟩
    | cons head before =>
        obtain ⟨rfl, tail⟩ := List.cons.inj parts
        obtain ⟨present, others⟩ := List.forall_mem_cons.1 earlier
        exact .inr ⟨present, before, after, tail, others, absent⟩
  · rintro (⟨absent, rfl⟩ | ⟨present, before, after, rfl, earlier, absent⟩)
    · exact ⟨[], names, rfl, by simp, absent⟩
    · exact ⟨first :: before, after, rfl, List.forall_mem_cons.2 ⟨present, earlier⟩, absent⟩

theorem forall_or_firstMissing (names known : List String) :
    (∀ name ∈ names, name ∈ known) ∨ ∃ name, FirstMissing names known name := by
  induction names with
  | nil => exact .inl (by simp)
  | cons first rest ih =>
      by_cases present : first ∈ known
      · rcases ih with all | ⟨name, missing⟩
        · exact .inl (List.forall_mem_cons.2 ⟨present, all⟩)
        · exact .inr ⟨name, firstMissing_cons_iff.2 (.inr ⟨present, missing⟩)⟩
      · exact .inr ⟨first, firstMissing_cons_iff.2 (.inl ⟨present, rfl⟩)⟩

end Names

namespace LabelTable

variable {table : LabelTable} {name : String}

def names (table : LabelTable) : List String := table.map Prod.fst

theorem address?_eq_none_iff : table.address? name = none ↔ name ∉ table.names := by
  rw [address?, List.lookup_eq_none_iff]
  simp only [names, List.mem_map, bne_iff_ne, ne_eq, not_exists, not_and]
  exact forall_congr' fun entry => forall_congr' fun _ => ⟨fun h same => h same.symm, fun h same => h same.symm⟩

theorem exists_resolve_of_mem (present : name ∈ table.names) : ∃ address, table.resolve name = .ok address := by
  cases found : table.address? name with
  | none => exact absurd present (address?_eq_none_iff.1 found)
  | some address => exact ⟨address, by rw [resolve, found]⟩

theorem resolve_of_not_mem (absent : name ∉ table.names) :
    table.resolve name = .error (.undefinedLabel name) := by
  rw [resolve, address?_eq_none_iff.2 absent]

theorem address?_of_resolve {address : Nat} (success : table.resolve name = .ok address) :
    table.address? name = some address := by
  rw [resolve] at success
  split at success
  next found =>
    cases success
    exact found
  next => cases success

theorem extend_append (table : LabelTable) (front back : List (String × Nat)) :
    table.extend (front ++ back) = table.extend front >>= (extend · back) := by
  induction front generalizing table with
  | nil => rfl
  | cons entry front ih =>
      rw [List.cons_append, extend, extend]
      split
      · rfl
      · exact ih _

/-- New names are added as they stand. -/
theorem extend_of_nodup {entries : List (String × Nat)} (distinct : (names (table ++ entries)).Nodup) :
    table.extend entries = .ok (table ++ entries) := by
  induction entries generalizing table with
  | nil => rw [extend, List.append_nil]
  | cons entry rest ih =>
      obtain ⟨name, address⟩ := entry
      have fresh : name ∉ table.names := by
        intro present
        rw [names, List.map_append] at distinct
        exact (List.nodup_append.1 distinct).2.2 name present name List.mem_cons_self rfl
      rw [extend, address?_eq_none_iff.2 fresh, ih (by rwa [List.append_assoc]), List.append_assoc]
      rfl

/-- The first name that is there already is reported. -/
theorem extend_of_firstRepeated {entries : List (String × Nat)} (repeated : FirstRepeated (names entries) name) :
    extend [] entries = .error (.duplicateLabel name) := by
  obtain ⟨before, after, parts, distinct, earlier⟩ := repeated
  obtain ⟨front, rest, rfl, rfl, tail⟩ := List.map_eq_append_iff.1 parts
  obtain ⟨⟨_, address⟩, back, rfl, rfl, -⟩ := List.map_eq_cons_iff.1 tail
  rw [extend_append, extend_of_nodup (by exact distinct)]
  cases found : address? front _ with
  | none => exact absurd earlier (address?_eq_none_iff.1 found)
  | some other => simp [bind, Except.bind, extend, found]

theorem extend_eq_ok {table result : LabelTable} {entries : List (String × Nat)}
    (success : table.extend entries = .ok result) : result = table ++ entries := by
  induction entries generalizing table with
  | nil =>
      cases success
      exact (List.append_nil _).symm
  | cons entry rest ih =>
      obtain ⟨label, address⟩ := entry
      rw [extend] at success
      split at success
      · cases success
      · rw [ih success, List.append_assoc]
        rfl

end LabelTable

theorem labelsOf_place {table : LabelTable} {start finish : Nat} {statements : List Statement}
    {instructions : List Instruction} (tiles : Tiles start finish instructions)
    (becomes : List.Forall₂ (Statement.Becomes table) statements instructions) :
    labelsOf (place start statements) =
      instructions.flatMap fun instruction => instruction.labels.map (·, instruction.address) := by
  induction becomes generalizing start with
  | nil => rfl
  | @cons statement instruction statements instructions first _ ih =>
      obtain ⟨rfl, others⟩ := tiles
      have size : instruction.next = instruction.address + statement.shape.size := by
        rw [Instruction.next, Instruction.size, Shape.size_of_resolve first.shape]
      rw [size] at others
      rw [List.flatMap_cons, ← ih others, first.labels]
      rfl

theorem lookup_map_const (labels : List String) (address : Nat) (name : String) :
    (labels.map (·, address)).lookup name = if name ∈ labels then some address else none := by
  induction labels with
  | nil => rfl
  | cons label rest ih =>
      rw [List.map_cons, List.lookup_cons, ih]
      by_cases same : name = label
      · simp [same]
      · simp [same, beq_false_of_ne same]

theorem lookup_labels (instructions : List Instruction) (name : String) :
    (instructions.flatMap fun instruction => instruction.labels.map (·, instruction.address)).lookup name =
      (instructions.find? (name ∈ ·.labels)).map Instruction.address := by
  induction instructions with
  | nil => rfl
  | cons first rest ih =>
      rw [List.flatMap_cons, List.lookup_append, ih, lookup_map_const, List.find?_cons]
      by_cases carried : name ∈ first.labels
      · simp [carried]
      · simp [carried]

theorem names_labelsOf_place (start : Nat) (statements : List Statement) :
    LabelTable.names (labelsOf (place start statements)) = definitions statements := by
  induction statements generalizing start with
  | nil => rfl
  | cons statement rest ih =>
      rw [place, labelsOf, List.flatMap_cons, LabelTable.names, List.map_append, List.map_map]
      exact congrArg₂ (· ++ ·) (List.map_id _) (ih _)

theorem labelTable_of_nodup {statements : List Statement} (distinct : (definitions statements).Nodup) :
    labelTable statements = .ok (labelsOf (place 0 statements)) :=
  LabelTable.extend_of_nodup (by rwa [List.nil_append, names_labelsOf_place])

theorem labelTable_of_firstRepeated {statements : List Statement} {name : String}
    (repeated : FirstRepeated (definitions statements) name) :
    labelTable statements = .error (.duplicateLabel name) :=
  LabelTable.extend_of_firstRepeated (by rwa [names_labelsOf_place])

section Shapes

variable {shape : Shape String} {find : String → Except Fault Nat}

theorem Argument.exists_resolve {argument : Argument String}
    (known : ∀ name, argument = .label name → ∃ address, find name = .ok address) :
    ∃ resolved, argument.resolve find = .ok resolved := by
  cases argument with
  | label name =>
      obtain ⟨address, found⟩ := known name rfl
      exact ⟨.direct address, by rw [resolve, found]; rfl⟩
  | _ => exact ⟨_, rfl⟩

theorem Shape.exists_resolve
    (known : ∀ name, shape.reference? = some name → ∃ address, find name = .ok address) :
    ∃ resolved, shape.resolve find = .ok resolved := by
  cases shape with
  | nullary opcode => exact ⟨_, rfl⟩
  | data value => exact ⟨_, rfl⟩
  | unary opcode register argument =>
      cases argument with
      | none => exact ⟨_, rfl⟩
      | some argument =>
          obtain ⟨resolved, found⟩ : ∃ resolved, argument.resolve find = .ok resolved := by
            refine Argument.exists_resolve fun name labelled => known name ?_
            rw [labelled, reference?]
          exact ⟨.unary opcode register (some resolved), by rw [resolve, found]; rfl⟩
  | binary opcode register argument =>
      obtain ⟨resolved, found⟩ : ∃ resolved, argument.resolve find = .ok resolved := by
        refine Argument.exists_resolve fun name labelled => known name ?_
        rw [labelled, reference?]
      exact ⟨.binary opcode register resolved, by rw [resolve, found]; rfl⟩

theorem Shape.resolve_eq_error {name : String} {fault : Fault} (refers : shape.reference? = some name)
    (unknown : find name = .error fault) : shape.resolve find = .error fault := by
  unfold reference? at refers
  split at refers
  · cases refers
    simp [resolve, Argument.resolve, unknown, bind, Except.bind, Except.map]
  · cases refers
    simp [resolve, Argument.resolve, unknown, bind, Except.bind, Except.map]
  · cases refers

end Shapes

/-- The instructions of placed statements, up to the first reference that cannot be resolved. -/
def resolveAll (table : LabelTable) (placed : List (Nat × Statement)) : Except Fault (List Instruction) :=
  placed.mapM fun (address, statement) => resolveStatement table address statement

theorem resolveAll_cons (table : LabelTable) (address : Nat) (statement : Statement)
    (rest : List (Nat × Statement)) :
    resolveAll table ((address, statement) :: rest) = do
      let instruction ← resolveStatement table address statement
      let instructions ← resolveAll table rest
      return instruction :: instructions := by
  rw [resolveAll, List.mapM_cons]
  rfl

theorem exists_resolveStatement (table : LabelTable) (statement : Statement)
    (known : ∀ name, statement.shape.reference? = some name → name ∈ table.names) (address : Nat) :
    ∃ instruction, resolveStatement table address statement = .ok instruction := by
  obtain ⟨resolved, found⟩ :=
    Shape.exists_resolve fun name refers => LabelTable.exists_resolve_of_mem (known name refers)
  exact ⟨⟨statement.labels, resolved, address⟩, by rw [resolveStatement, found]; rfl⟩

theorem exists_resolveAll {table : LabelTable} {statements : List Statement}
    (known : ∀ name ∈ references statements, name ∈ table.names) (start : Nat) :
    ∃ instructions, resolveAll table (place start statements) = .ok instructions := by
  induction statements generalizing start with
  | nil => exact ⟨[], rfl⟩
  | cons statement rest ih =>
      obtain ⟨instruction, first⟩ := exists_resolveStatement table statement
        (fun name refers => known name (List.mem_filterMap.2 ⟨statement, List.mem_cons_self, refers⟩)) start
      have knownRest : ∀ name ∈ references rest, name ∈ table.names := by
        intro name refers
        obtain ⟨other, member, found⟩ := List.mem_filterMap.1 refers
        exact known name (List.mem_filterMap.2 ⟨other, List.mem_cons_of_mem _ member, found⟩)
      obtain ⟨instructions, others⟩ := ih knownRest (start + statement.shape.size)
      exact ⟨instruction :: instructions, by rw [place, resolveAll_cons, first, others]; rfl⟩

/-- The first reference without a label is reported. -/
theorem resolveAll_of_firstMissing {table : LabelTable} {statements : List Statement} {name : String}
    (missing : FirstMissing (references statements) table.names name) (start : Nat) :
    resolveAll table (place start statements) = .error (.undefinedLabel name) := by
  induction statements generalizing start with
  | nil => exact absurd (by simp [references]) missing.not_forall
  | cons statement rest ih =>
      rw [references, List.filterMap_cons] at missing
      rw [place, resolveAll_cons]
      cases refers : statement.shape.reference? with
      | none =>
          rw [refers] at missing
          obtain ⟨instruction, first⟩ := exists_resolveStatement table statement
            (fun name found => by rw [refers] at found; cases found) start
          rw [first, ih missing]
          rfl
      | some referred =>
          rw [refers, firstMissing_cons_iff] at missing
          rcases missing with ⟨absent, rfl⟩ | ⟨present, missing⟩
          · rw [resolveStatement, Shape.resolve_eq_error refers (LabelTable.resolve_of_not_mem absent)]
            rfl
          · obtain ⟨instruction, first⟩ := exists_resolveStatement table statement
              (fun name found => Option.some.inj (refers.symm.trans found) ▸ present) start
            rw [first, ih missing]
            rfl

theorem layout_eq (statements : List Statement) :
    layout statements = do
      let table ← labelTable statements
      let instructions ← resolveAll table (place 0 statements)
      return ⟨instructions, table⟩ :=
  rfl

theorem layout_of_firstRepeated {statements : List Statement} {name : String}
    (repeated : FirstRepeated (definitions statements) name) :
    layout statements = .error (.duplicateLabel name) := by
  rw [layout_eq, labelTable_of_firstRepeated repeated]
  rfl

section Distinct

variable {statements : List Statement} (distinct : (definitions statements).Nodup)

include distinct

theorem layout_of_firstMissing {name : String}
    (missing : FirstMissing (references statements) (definitions statements) name) :
    layout statements = .error (.undefinedLabel name) := by
  rw [← names_labelsOf_place 0] at missing
  rw [layout_eq, labelTable_of_nodup distinct]
  simp only [bind, Except.bind, resolveAll_of_firstMissing missing]

theorem exists_layout (known : ∀ name ∈ references statements, name ∈ definitions statements) :
    ∃ result, layout statements = .ok result := by
  rw [← names_labelsOf_place 0] at known
  obtain ⟨instructions, resolved⟩ := exists_resolveAll known 0
  refine ⟨⟨instructions, labelsOf (place 0 statements)⟩, ?_⟩
  rw [layout_eq, labelTable_of_nodup distinct]
  simp only [bind, Except.bind, resolved]
  rfl

end Distinct

/-- A program is laid out, or the label is reported for which it is not. -/
theorem layout_cases (statements : List Statement) :
    (∃ name, FirstRepeated (definitions statements) name ∧
        layout statements = .error (.duplicateLabel name)) ∨
      (definitions statements).Nodup ∧
        ((∃ name, FirstMissing (references statements) (definitions statements) name ∧
            layout statements = .error (.undefinedLabel name)) ∨
          (∀ name ∈ references statements, name ∈ definitions statements) ∧
            ∃ result, layout statements = .ok result) := by
  rcases nodup_or_firstRepeated (definitions statements) with distinct | ⟨name, repeated⟩
  · rcases forall_or_firstMissing (references statements) (definitions statements) with known | ⟨name, missing⟩
    · exact .inr ⟨distinct, .inr ⟨known, exists_layout distinct known⟩⟩
    · exact .inr ⟨distinct, .inl ⟨name, missing, layout_of_firstMissing distinct missing⟩⟩
  · exact .inl ⟨name, repeated, layout_of_firstRepeated repeated⟩

theorem exists_layout_iff (statements : List Statement) :
    (∃ result, layout statements = .ok result) ↔
      (definitions statements).Nodup ∧ ∀ name ∈ references statements, name ∈ definitions statements := by
  constructor
  · rintro ⟨result, success⟩
    rcases layout_cases statements with ⟨name, -, fails⟩ | ⟨distinct, ⟨name, -, fails⟩ | ⟨known, -⟩⟩
    · cases success.symm.trans fails
    · cases success.symm.trans fails
    · exact ⟨distinct, known⟩
  · rintro ⟨distinct, known⟩
    exact exists_layout distinct known

theorem layout_eq_error_iff (statements : List Statement) (fault : Fault) :
    layout statements = .error fault ↔
      (∃ name, fault = .duplicateLabel name ∧ FirstRepeated (definitions statements) name) ∨
        (definitions statements).Nodup ∧ ∃ name, fault = .undefinedLabel name ∧
          FirstMissing (references statements) (definitions statements) name := by
  constructor
  · intro failure
    rcases layout_cases statements with
      ⟨name, repeated, fails⟩ | ⟨distinct, ⟨name, missing, fails⟩ | ⟨-, result, success⟩⟩
    · cases failure.symm.trans fails
      exact .inl ⟨name, rfl, repeated⟩
    · cases failure.symm.trans fails
      exact .inr ⟨distinct, name, rfl, missing⟩
    · cases failure.symm.trans success
  · rintro (⟨name, rfl, repeated⟩ | ⟨distinct, name, rfl, missing⟩)
    · exact layout_of_firstRepeated repeated
    · exact layout_of_firstMissing distinct missing

end WordMachine.Assembly
