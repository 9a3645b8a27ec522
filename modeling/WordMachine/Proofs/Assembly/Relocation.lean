import WordMachine.Proofs.Assembly.Resolution

/-! # Programs behind other programs

A program that stands behind another one is the same program at other addresses.  Its instructions move by the size
of the first program, and with them the addresses that its labels stand for; nothing else changes.
-/

namespace WordMachine.Assembly

def Argument.shift (offset : Nat) : Argument Empty → Argument Empty
  | .direct address => .direct (offset + address)
  | argument => argument

def Shape.shift (offset : Nat) : Shape Empty → Shape Empty
  | .unary opcode register argument => .unary opcode register (argument.map (Argument.shift offset))
  | .binary opcode register argument => .binary opcode register (argument.shift offset)
  | shape => shape

/-- What a statement becomes behind a program of `offset` bytes if it becomes `shape` on its own. -/
def Shape.relocate (offset : Nat) (written : Shape String) (shape : Shape Empty) : Shape Empty :=
  if written.reference?.isSome then shape.shift offset else shape

def Instruction.relocate (offset : Nat) (statement : Statement) (instruction : Instruction) : Instruction where
  labels := instruction.labels
  shape := statement.shape.relocate offset instruction.shape
  address := offset + instruction.address

/-- The instructions of a program behind a program of `offset` bytes. -/
def relocateAll (offset : Nat) : List Statement → List Instruction → List Instruction :=
  List.zipWith (Instruction.relocate offset)

def LabelTable.shift (offset : Nat) (table : LabelTable) : LabelTable :=
  table.map fun (name, address) => (name, offset + address)

/-- The layout of a program behind another one. -/
def Layout.append (first second : Layout) (behind : List Statement) : Layout where
  instructions := first.instructions ++ relocateAll (programSize first.instructions) behind second.instructions
  labels := first.labels ++ second.labels.shift (programSize first.instructions)

namespace LabelTable

theorem address?_shift (offset : Nat) (table : LabelTable) (name : String) :
    (table.shift offset).address? name = (table.address? name).map (offset + ·) := by
  induction table with
  | nil => rfl
  | cons entry rest ih =>
      obtain ⟨label, address⟩ := entry
      simp only [shift, address?, List.map_cons, List.lookup_cons] at ih ⊢
      split
      · rfl
      · exact ih

theorem address?_append (front back : LabelTable) (name : String) :
    (front ++ back).address? name = (front.address? name).or (back.address? name) :=
  List.lookup_append

theorem resolve_eq_ok_iff {table : LabelTable} {name : String} {address : Nat} :
    table.resolve name = .ok address ↔ table.address? name = some address := by
  refine ⟨address?_of_resolve, fun found => ?_⟩
  rw [resolve, found]

end LabelTable

section Resolving

variable {offset : Nat} {shape : Shape String} {resolved : Shape Empty} {find moved : String → Except Fault Nat}

/-- If labels move, exactly the arguments that refer to them do. -/
theorem Shape.resolve_relocate (found : shape.resolve find = .ok resolved)
    (moves : ∀ name address, find name = .ok address → moved name = .ok (offset + address)) :
    shape.resolve moved = .ok (shape.relocate offset resolved) := by
  have argument : ∀ {name resolved}, (Argument.label name).resolve find = .ok resolved →
      (Argument.label name).resolve moved = .ok (resolved.shift offset) := by
    intro name resolved found
    obtain ⟨address, here, rfl⟩ := exists_of_map_eq_ok found
    rw [Argument.resolve, moves name address here]
    rfl
  cases shape with
  | nullary opcode =>
      cases found
      rfl
  | data value =>
      cases found
      rfl
  | unary opcode register written =>
      cases written with
      | none =>
          cases found
          rfl
      | some written =>
          obtain ⟨target, here, found⟩ := exists_of_bind_eq_ok found
          cases found
          cases written with
          | label name =>
              rw [resolve, argument here]
              rfl
          | _ =>
              cases here
              rfl
  | binary opcode register written =>
      obtain ⟨target, here, found⟩ := exists_of_bind_eq_ok found
      cases found
      cases written with
      | label name =>
          rw [resolve, argument here]
          rfl
      | _ =>
          cases here
          rfl

/-- An operation that refers to a label has an address for its operand, and it is moved with the label. -/
theorem Shape.framing_of_reference {name : String} (found : shape.resolve find = .ok resolved)
    (refers : shape.reference? = some name) (offset : Nat) :
    ∃ opcode register address, find name = .ok address ∧
      resolved.framing? = some ⟨opcode, register, some (.direct address)⟩ ∧
      (shape.relocate offset resolved).framing? = some ⟨opcode, register, some (.direct (offset + address))⟩ := by
  rw [relocate, refers]
  unfold reference? at refers
  split at refers
  · cases refers
    obtain ⟨target, here, found⟩ := exists_of_bind_eq_ok found
    obtain ⟨address, known, rfl⟩ := exists_of_map_eq_ok here
    cases found
    exact ⟨_, _, address, known, rfl, rfl⟩
  · cases refers
    obtain ⟨target, here, found⟩ := exists_of_bind_eq_ok found
    obtain ⟨address, known, rfl⟩ := exists_of_map_eq_ok here
    cases found
    exact ⟨_, _, address, known, rfl, rfl⟩
  · cases refers

theorem Shape.relocate_of_no_reference (plain : shape.reference? = none) (offset : Nat) :
    shape.relocate offset resolved = resolved := by
  rw [relocate, plain]
  rfl

theorem Shape.shift_zero (shape : Shape Empty) : shape.shift 0 = shape := by
  have argument : ∀ argument : Argument Empty, argument.shift 0 = argument := by
    intro argument
    cases argument <;> simp [Argument.shift]
  cases shape with
  | unary opcode register written => cases written <;> simp [shift, argument]
  | binary opcode register written => simp [shift, argument]
  | _ => rfl

theorem Instruction.relocate_zero (statement : Statement) (instruction : Instruction) :
    instruction.relocate 0 statement = instruction := by
  simp [relocate, Shape.relocate, Shape.shift_zero]

end Resolving

section Placing

theorem place_append (start : Nat) (front back : List Statement) :
    place start (front ++ back) = place start front ++ place (start + (front.map (·.shape.size)).sum) back := by
  induction front generalizing start with
  | nil => rfl
  | cons first rest ih => simp [place, ih, Nat.add_assoc]

theorem labelsOf_place_shift (offset start : Nat) (statements : List Statement) :
    labelsOf (place (offset + start) statements) = LabelTable.shift offset (labelsOf (place start statements)) := by
  induction statements generalizing start with
  | nil => rfl
  | cons first rest ih =>
      simp only [labelsOf, place, List.flatMap_cons, LabelTable.shift, List.map_append, List.map_map] at ih ⊢
      rw [Nat.add_assoc, ih]
      rfl

theorem resolveAll_append (table : LabelTable) (front back : List (Nat × Statement)) :
    resolveAll table (front ++ back) = do
      let before ← resolveAll table front
      let behind ← resolveAll table back
      return before ++ behind :=
  List.mapM_append

variable {offset : Nat} {table moved : LabelTable}

theorem Instruction.size_relocate {statement : Statement} {instruction : Instruction}
    (becomes : statement.Becomes table instruction) (offset : Nat) :
    (instruction.relocate offset statement).size = instruction.size := by
  have moves : ∀ name address, table.resolve name = .ok address →
      (table.resolve name).map (offset + ·) = .ok (offset + address) := by
    intro name address found
    rw [found]
    rfl
  have relocated := Shape.size_of_resolve (Shape.resolve_relocate becomes.shape moves)
  exact relocated.trans (Shape.size_of_resolve becomes.shape).symm

variable {start finish : Nat} {statements : List Statement} {instructions : List Instruction}
  (becomes : List.Forall₂ (Statement.Becomes table) statements instructions)

include becomes

theorem relocateAll_zero : relocateAll 0 statements instructions = instructions := by
  induction becomes with
  | nil => rfl
  | cons _ _ ih =>
      rw [relocateAll, List.zipWith_cons_cons, Instruction.relocate_zero]
      exact congrArg _ ih

/-- If all labels of a program are moved by an offset, so are its instructions. -/
theorem resolveAll_relocate (tiles : Tiles start finish instructions)
    (moves : ∀ name address, table.resolve name = .ok address → moved.resolve name = .ok (offset + address)) :
    resolveAll moved (place (offset + start) statements) = .ok (relocateAll offset statements instructions) := by
  induction becomes generalizing start with
  | nil => rfl
  | @cons statement instruction statements instructions first _ ih =>
      obtain ⟨rfl, others⟩ := tiles
      have size : instruction.next = instruction.address + statement.shape.size := by
        rw [Instruction.next, Instruction.size, Shape.size_of_resolve first.shape]
      have rest := ih others
      rw [size, ← Nat.add_assoc] at rest
      rw [place, resolveAll_cons, resolveStatement, Shape.resolve_relocate first.shape moves, rest, ← first.labels]
      rfl

theorem Tiles.relocate (tiles : Tiles start finish instructions) (offset : Nat) :
    Tiles (offset + start) (offset + finish) (relocateAll offset statements instructions) := by
  induction becomes generalizing start with
  | nil => exact congrArg _ tiles
  | @cons statement instruction statements instructions first _ ih =>
      obtain ⟨rfl, others⟩ := tiles
      refine ⟨rfl, ?_⟩
      rw [Instruction.next, Instruction.size_relocate first offset]
      have rest := ih others
      rwa [Instruction.next, ← Nat.add_assoc] at rest

theorem Tiles.sum_statements (tiles : Tiles start finish instructions) :
    start + (statements.map (·.shape.size)).sum = finish := by
  rw [← map_size_of_becomes becomes]
  exact tiles.sum_sizes

end Placing

theorem names_of_layout {statements : List Statement} {result : Layout} (laidOut : layout statements = .ok result) :
    result.labels.names = definitions statements := by
  rw [LabelTable.extend_eq_ok (layout_eq_ok laidOut).1, List.nil_append, names_labelsOf_place]

section Joining

variable {before behind : List Statement} {first second : Layout} (laidOutFirst : layout before = .ok first)
  (laidOutSecond : layout behind = .ok second)

include laidOutFirst laidOutSecond

/-- Statements behind others are laid out as on their own, but at addresses moved by the size of the others. -/
theorem layout_append (apart : ∀ name ∈ definitions before, name ∉ definitions behind) :
    layout (before ++ behind) = .ok (first.append second behind) := by
  obtain ⟨labelsFirst, tilesFirst, becomesFirst⟩ := layout_eq_ok laidOutFirst
  obtain ⟨labelsSecond, tilesSecond, becomesSecond⟩ := layout_eq_ok laidOutSecond
  have size := Tiles.sum_statements becomesFirst tilesFirst
  have placed : place 0 (before ++ behind) = place 0 before ++ place (programSize first.instructions + 0) behind := by
    rw [place_append, size, Nat.add_zero]
  have distinct : (definitions (before ++ behind)).Nodup := by
    rw [definitions, List.flatMap_append]
    exact List.nodup_append.2 ⟨definitions_nodup_of_layout laidOutFirst, definitions_nodup_of_layout laidOutSecond,
      fun name here other there same => apart name here (same ▸ there)⟩
  have labels : labelTable (before ++ behind) = .ok (first.append second behind).labels := by
    rw [labelTable_of_nodup distinct, placed, labelsOf, List.flatMap_append, Layout.append,
      LabelTable.extend_eq_ok labelsFirst, LabelTable.extend_eq_ok labelsSecond]
    exact congrArg (fun labels => Except.ok (labelsOf (place 0 before) ++ labels)) (labelsOf_place_shift _ 0 behind)
  -- The first program finds its labels where they were, the second one behind the first.
  have kept : ∀ name address, first.labels.resolve name = .ok address →
      (first.append second behind).labels.resolve name = .ok (0 + address) := by
    intro name address found
    rw [LabelTable.resolve_eq_ok_iff] at found ⊢
    rw [Layout.append, LabelTable.address?_append, found, Nat.zero_add]
    rfl
  have moves : ∀ name address, second.labels.resolve name = .ok address →
      (first.append second behind).labels.resolve name = .ok (programSize first.instructions + address) := by
    intro name address found
    rw [LabelTable.resolve_eq_ok_iff] at found ⊢
    have there : name ∈ definitions behind := by
      by_contra absent
      rw [← names_of_layout laidOutSecond, ← LabelTable.address?_eq_none_iff, found] at absent
      cases absent
    have absent : first.labels.address? name = none := by
      rw [LabelTable.address?_eq_none_iff, names_of_layout laidOutFirst]
      exact fun here => apart name here there
    rw [Layout.append, LabelTable.address?_append, LabelTable.address?_shift, absent, found]
    rfl
  have instructionsFirst := resolveAll_relocate becomesFirst tilesFirst kept
  have instructionsSecond := resolveAll_relocate becomesSecond tilesSecond moves
  rw [relocateAll_zero becomesFirst, Nat.zero_add] at instructionsFirst
  rw [layout_eq, labels, placed]
  simp only [bind, Except.bind, resolveAll_append, instructionsFirst, instructionsSecond]
  rfl

theorem programSize_append (apart : ∀ name ∈ definitions before, name ∉ definitions behind) :
    programSize (first.append second behind).instructions =
      programSize first.instructions + programSize second.instructions := by
  obtain ⟨-, tilesFirst, -⟩ := layout_eq_ok laidOutFirst
  obtain ⟨-, tilesSecond, becomesSecond⟩ := layout_eq_ok laidOutSecond
  have total := (layout_eq_ok (layout_append laidOutFirst laidOutSecond apart)).2.1.sum_sizes
  have sumFirst := tilesFirst.sum_sizes
  have sumSecond := (tilesSecond.relocate becomesSecond (programSize first.instructions)).sum_sizes
  rw [Layout.append, List.map_append, List.sum_append, ← Layout.append] at total
  omega

end Joining

end WordMachine.Assembly
