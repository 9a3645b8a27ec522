import WordMachine.Assembly.Statement

/-! # Other labels in the place of labels

What the change of every label of an argument, a shape or a statement does, and what it does not touch.
-/

namespace WordMachine.Assembly

variable {Label Other : Type}

def Argument.map (change : Label → Other) : Argument Label → Argument Other
  | accumulator => .accumulator
  | immediate value => .immediate value
  | direct address => .direct address
  | label name => .label (change name)

def Shape.map (change : Label → Other) : Shape Label → Shape Other
  | nullary opcode => .nullary opcode
  | unary opcode register argument => .unary opcode register (argument.map (Argument.map change))
  | binary opcode register argument => .binary opcode register (argument.map change)
  | data value => .data value

theorem Argument.text_map (change : Label → Other) (name : Other → String) (argument : Argument Label) :
    (argument.map change).text name = argument.text (name ∘ change) := by
  cases argument <;> rfl

theorem Shape.text_map (change : Label → Other) (name : Other → String) (shape : Shape Label) :
    (shape.map change).text name = shape.text (name ∘ change) := by
  cases shape with
  | nullary opcode => rfl
  | data value => rfl
  | binary opcode register argument => simp only [map, text, Argument.text_map]
  | unary opcode register argument => cases argument <;> simp only [map, text, Option.map, Argument.text_map]

/-- An argument without labels is resolved to itself. -/
theorem Argument.resolve_map {Error : Type} (find : Label → Except Error Nat) (argument : Argument Empty) :
    (argument.map Empty.elim).resolve find = .ok argument := by
  cases argument with
  | label name => exact name.elim
  | _ => rfl

theorem Shape.resolve_map {Error : Type} (find : Label → Except Error Nat) (shape : Shape Empty) :
    (shape.map Empty.elim).resolve find = .ok shape := by
  cases shape with
  | nullary opcode => rfl
  | data value => rfl
  | binary opcode register argument =>
      rw [map, resolve, Argument.resolve_map]
      rfl
  | unary opcode register argument =>
      cases argument with
      | none => rfl
      | some argument =>
          rw [map, Option.map, resolve, Argument.resolve_map]
          rfl

/-- A statement with other names for its labels and for the labels that it refers to. -/
def Statement.rename (change : String → String) (statement : Statement) : Statement :=
  ⟨statement.labels.map change, statement.shape.map change⟩

@[simp] theorem Argument.map_id (argument : Argument Label) : argument.map id = argument := by
  cases argument <;> rfl

@[simp] theorem Shape.map_id (shape : Shape Label) : shape.map id = shape := by
  cases shape with
  | nullary opcode => rfl
  | data value => rfl
  | binary opcode register argument => rw [map, Argument.map_id]
  | unary opcode register argument => cases argument <;> simp [map]

@[simp] theorem Statement.rename_id (statement : Statement) : statement.rename id = statement := by
  simp [rename]

end WordMachine.Assembly
