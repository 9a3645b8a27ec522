import WordMachine.Assembly.Layout
import WordMachine.Proofs.Except

/-! # Laid out programs tile the memory

A layout gives every statement one instruction, with the same labels and at the address behind the instruction
before it.  `Tiles` is the shape of such a list: each instruction starts where the last one ended.
-/

namespace WordMachine.Assembly

/-- Each instruction starts where the one before it ends: the first at `start`, and `finish` is behind the
    last. -/
def Tiles (start finish : Nat) : List Instruction → Prop
  | [] => start = finish
  | instruction :: rest => instruction.address = start ∧ Tiles instruction.next finish rest

theorem Framing.size_pos {Label : Type} (framing : Framing Label) : 0 < framing.head.size := by
  simp only [Head.size, Mode.instructionBytes]
  omega

theorem Shape.size_of_framing {Label : Type} {shape : Shape Label} {framing : Framing Label}
    (framed : shape.framing? = some framing) : shape.size = framing.head.size := by
  rw [Shape.size, framed]

theorem Shape.size_pos {Label : Type} (shape : Shape Label) : 0 < shape.size := by
  unfold Shape.size
  split
  · exact Framing.size_pos _
  · exact Nat.one_pos

/-- An operation has a framing, data has none. -/
theorem Shape.framing?_eq_none_iff {Label : Type} {shape : Shape Label} :
    shape.framing? = none ↔ ∃ value, shape = .data value := by
  cases shape <;> simp [Shape.framing?]

namespace Tiles

variable {start finish : Nat} {instructions : List Instruction}

theorem le (tiles : Tiles start finish instructions) : start ≤ finish := by
  induction instructions generalizing start with
  | nil => exact Nat.le_of_eq tiles
  | cons instruction rest ih =>
      have := ih tiles.2
      have := tiles.1
      simp only [Instruction.next] at *
      omega

theorem bounds (tiles : Tiles start finish instructions) {instruction : Instruction}
    (member : instruction ∈ instructions) : start ≤ instruction.address ∧ instruction.next ≤ finish := by
  induction instructions generalizing start with
  | nil => simp at member
  | cons first rest ih =>
      obtain ⟨atStart, others⟩ := tiles
      rcases List.mem_cons.1 member with rfl | member
      · exact ⟨Nat.le_of_eq atStart.symm, le others⟩
      · have inside := ih others member
        simp only [Instruction.next] at *
        omega

/-- No address belongs to two instructions. -/
theorem disjoint (tiles : Tiles start finish instructions) :
    instructions.Pairwise fun before after => before.next ≤ after.address := by
  induction instructions generalizing start with
  | nil => exact .nil
  | cons first rest ih =>
      exact .cons (fun _ member => (bounds tiles.2 member).1) (ih tiles.2)

theorem programSize_eq (tiles : Tiles start finish instructions) (nonempty : instructions ≠ []) :
    programSize instructions = finish := by
  induction instructions generalizing start with
  | nil => exact absurd rfl nonempty
  | cons first rest ih =>
      cases rest with
      | nil => exact tiles.2
      | cons second rest =>
          rw [← ih tiles.2 (List.cons_ne_nil _ _)]
          simp [programSize, List.getLast?_cons_cons]

end Tiles

/-- A statement and its instruction: the labels are the same, and the argument is what the statement's argument
    stands for. -/
structure Statement.Becomes (table : LabelTable) (statement : Statement) (instruction : Instruction) : Prop where
  labels : instruction.labels = statement.labels
  shape : statement.shape.resolve table.resolve = .ok instruction.shape

/-- A framing that comes from another one by putting addresses in the place of labels. -/
structure Framing.Resolves {Label Error : Type} (address : Label → Except Error Nat) (written : Framing Label)
    (framing : Framing Empty) : Prop where
  head : framing.head = written.head
  argument : Option.Rel (fun written argument => written.resolve address = .ok argument)
    written.argument framing.argument

/-- The framing of an instruction is that of its statement with the argument resolved; data stays data. -/
theorem Shape.framing_of_resolve {Label Error : Type} {address : Label → Except Error Nat} {shape : Shape Label}
    {resolved : Shape Empty} (success : shape.resolve address = .ok resolved) :
    Option.Rel (Framing.Resolves address) shape.framing? resolved.framing? := by
  cases shape with
  | nullary opcode =>
      cases success
      exact .some ⟨rfl, .none⟩
  | data value =>
      cases success
      exact .none
  | unary opcode register argument =>
      cases argument with
      | none =>
          cases success
          exact .some ⟨rfl, .none⟩
      | some argument =>
          obtain ⟨target, found, success⟩ := exists_of_bind_eq_ok success
          cases success
          refine .some ⟨?_, .some found⟩
          simp [Framing.head, Framing.mode, Argument.mode_of_resolve found]
  | binary opcode register argument =>
      obtain ⟨target, found, success⟩ := exists_of_bind_eq_ok success
      cases success
      refine .some ⟨?_, .some found⟩
      simp [Framing.head, Framing.mode, Argument.mode_of_resolve found]

/-- The size that a statement is laid out with is the size of its instruction. -/
theorem Shape.size_of_resolve {Label Error : Type} {address : Label → Except Error Nat} {shape : Shape Label}
    {resolved : Shape Empty} (success : shape.resolve address = .ok resolved) : resolved.size = shape.size := by
  have framings := framing_of_resolve success
  unfold Shape.size
  generalize shape.framing? = written at framings ⊢
  generalize resolved.framing? = framed at framings ⊢
  cases framings with
  | none => rfl
  | some resolves => exact congrArg Head.size resolves.head

theorem tiles_of_forall₂ {table : LabelTable} {start : Nat} {statements : List Statement}
    {instructions : List Instruction}
    (resolved : List.Forall₂ (fun placed instruction =>
      resolveStatement table placed.1 placed.2 = .ok instruction) (place start statements) instructions) :
    ∃ finish, Tiles start finish instructions ∧ List.Forall₂ (Statement.Becomes table) statements instructions := by
  induction statements generalizing start instructions with
  | nil =>
      cases resolved
      exact ⟨start, rfl, .nil⟩
  | cons statement statements ih =>
      cases resolved with
      | cons first others =>
          obtain ⟨shape, found, first⟩ := exists_of_bind_eq_ok first
          cases first
          obtain ⟨finish, tiles, becomes⟩ := ih others
          refine ⟨finish, ⟨rfl, ?_⟩, .cons ⟨rfl, found⟩ becomes⟩
          simpa only [Instruction.next, Instruction.size, Shape.size_of_resolve found] using tiles

/-- What a layout is: one instruction for each statement, tiling the memory from address 0 on. -/
theorem layout_eq_ok {statements : List Statement} {result : Layout} (success : layout statements = .ok result) :
    labelTable statements = .ok result.labels ∧
      Tiles 0 (programSize result.instructions) result.instructions ∧
      List.Forall₂ (Statement.Becomes result.labels) statements result.instructions := by
  obtain ⟨table, labels, success⟩ := exists_of_bind_eq_ok success
  obtain ⟨instructions, traversal, success⟩ := exists_of_bind_eq_ok success
  cases success
  obtain ⟨finish, tiles, becomes⟩ := tiles_of_forall₂ (mapM_eq_ok_iff.1 traversal)
  refine ⟨labels, ?_, becomes⟩
  cases instructions with
  | nil => exact rfl
  | cons first rest => exact tiles.programSize_eq (List.cons_ne_nil _ _) ▸ tiles

end WordMachine.Assembly
