import WordMachine.Proofs.Assembly.Acceptance
import WordMachine.Proofs.Assembly.Concatenation
import WordMachine.Proofs.Assembly.Padding
import WordMachine.Proofs.Assembly.Printing
import WordMachine.Proofs.Assembly.Relocation
import WordMachine.Proofs.Machine.Refinement

/-! # Programs assembled together

Two programs in one text are assembled together if the addresses that the labels of the second stand for are still
words behind the first.  Then the image is that of both, with the moved addresses in place of the old ones.
-/

namespace WordMachine.Assembly

open Memory Reference

/-- A reference to a label: the address of its instruction, and the address that the label stands for. -/
structure LabelUse where
  address : Nat
  target : Nat
  deriving Repr, DecidableEq

/-- The reference in a statement at an address, if there is one. -/
def labelUse? (table : LabelTable) (address : Nat) (statement : Statement) : Option LabelUse := do
  let name ← statement.shape.reference?
  return ⟨address, ← table.address? name⟩

/-- The references to labels in placed statements, in program order. -/
def labelUses (table : LabelTable) (placed : List (Nat × Statement)) : List LabelUse :=
  placed.filterMap fun (address, statement) => labelUse? table address statement

/-- A reference that has no encoding any more once its program is moved. -/
def LabelUse.overflows (offset : Nat) (use : LabelUse) : Bool := 65535 < offset + use.target

/-- What is reported for a reference that was moved too far. -/
def LabelUse.fault (offset : Nat) (use : LabelUse) : Fault :=
  .operandTooWide (offset + use.target) (offset + use.address)

/-- The places of the operands of some references. -/
def operandFields (uses : List LabelUse) : Set Nat := {place | ∃ use ∈ uses, place = use.address + 1}

/-- Bytes in which the words at some places are increased by an offset, and all others are as they were. -/
structure Moved (offset : Nat) (fields : Set Nat) (bytes moved : List UInt8) : Prop where
  length : moved.length = bytes.length
  field : ∀ place ∈ fields, ∃ word, wordAt? bytes place = some word ∧ wordAt? moved place = some (offset + word)
  kept : ∀ index, (∀ place ∈ fields, index < place ∨ place + 2 ≤ index) → moved[index]? = bytes[index]?

section Checks

variable {offset size start finish : Nat} {table : LabelTable}

/-- An operation on a word in memory that lies in memory itself is only refused for its operand. -/
theorem Framing.firstFailure?_direct (opcode : Opcode) (register : Register) {value address : Nat}
    (room : address + 3 ≤ size) :
    firstFailure? (Framing.checks ⟨opcode, register, some (.direct value)⟩ address size) =
      if value ≤ 65535 then none else some (.operandTooWide value address) := by
  have below : address < size := by omega
  by_cases narrow : value ≤ 65535
  · simp [checks, payload?, Argument.payload?, mode, Argument.mode, operandChecks, firstFailure?, below, room, narrow]
  · simp [checks, payload?, Argument.payload?, mode, Argument.mode, operandChecks, firstFailure?, below, narrow]

/-- The operand of a moved instruction is refused if it comes from a label that was moved too far; everything else
    passes as before. -/
theorem Statement.Becomes.firstFailure?_relocate {statement : Statement} {instruction : Instruction}
    (becomes : statement.Becomes table instruction) (encodable : instruction.Encodable)
    (inside : instruction.next ≤ size) :
    firstFailure? ((instruction.relocate offset statement).checks (offset + size)) =
      ((labelUse? table instruction.address statement).filter (LabelUse.overflows offset)).map
        (LabelUse.fault offset) := by
  cases refers : statement.shape.reference? with
  | none =>
      have same : (instruction.relocate offset statement).shape = instruction.shape :=
        Shape.relocate_of_no_reference refers offset
      have next : (instruction.relocate offset statement).next = offset + instruction.next := by
        rw [Instruction.next, Instruction.size_relocate becomes, Instruction.next, ← Nat.add_assoc]
        rfl
      have passed := (Instruction.checks_passed_iff (instruction.relocate offset statement)).2
        ⟨⟨same ▸ encodable.framed, same ▸ encodable.data⟩, next ▸ Nat.add_le_add_left inside offset⟩
      rw [passed, labelUse?, refers]
      rfl
  | some name =>
      obtain ⟨opcode, register, address, found, own, relocated⟩ :=
        Shape.framing_of_reference becomes.shape refers offset
      have length : instruction.address + 3 ≤ size := by
        rwa [Instruction.next, Instruction.size, Shape.size_of_framing own] at inside
      have use : labelUse? table instruction.address statement = some ⟨instruction.address, address⟩ := by
        simp [labelUse?, refers, LabelTable.address?_of_resolve found]
      have room : (instruction.relocate offset statement).address + 3 ≤ offset + size := by
        simp only [Instruction.relocate]
        omega
      rw [use, Instruction.checks_of_framing relocated, Framing.firstFailure?_direct opcode register room]
      by_cases narrow : offset + address ≤ 65535
      · have fits : LabelUse.overflows offset ⟨instruction.address, address⟩ = false :=
          decide_eq_false (Nat.not_lt.2 narrow)
        rw [if_pos narrow, Option.filter_some, fits]
        rfl
      · have wide : LabelUse.overflows offset ⟨instruction.address, address⟩ = true :=
          decide_eq_true (Nat.lt_of_not_le narrow)
        rw [if_neg narrow, Option.filter_some, wide]
        rfl

theorem labelUses_cons (table : LabelTable) (address : Nat) (statement : Statement) (rest : List (Nat × Statement)) :
    labelUses table ((address, statement) :: rest) =
      (labelUse? table address statement).toList ++ labelUses table rest := by
  cases use : labelUse? table address statement <;> simp [labelUses, use]

theorem find?_toList {α : Type} (found : Option α) (p : α → Bool) : found.toList.find? p = found.filter p := by
  cases found with
  | none => rfl
  | some value => rw [Option.toList_some, List.find?_singleton, Option.filter_some]

/-- A moved program is refused for the first of its references that was moved too far. -/
theorem firstFailure?_relocateAll {statements : List Statement} {instructions : List Instruction}
    (becomes : List.Forall₂ (Statement.Becomes table) statements instructions)
    (tiles : Tiles start finish instructions) (inside : finish ≤ size)
    (encodable : ∀ instruction ∈ instructions, instruction.Encodable) :
    firstFailure? (checksOf (offset + size) (relocateAll offset statements instructions)) =
      ((labelUses table (place start statements)).find? (LabelUse.overflows offset)).map (LabelUse.fault offset) := by
  induction becomes generalizing start with
  | nil => rfl
  | @cons statement instruction statements instructions first _ ih =>
      obtain ⟨rfl, others⟩ := tiles
      obtain ⟨encodableFirst, encodableRest⟩ := List.forall_mem_cons.1 encodable
      have rest := ih others encodableRest
      have own : firstFailure? ((instruction.relocate offset statement).checks (offset + size)) = _ :=
        first.firstFailure?_relocate encodableFirst (Nat.le_trans others.le inside)
      have next : instruction.next = instruction.address + statement.shape.size := by
        rw [Instruction.next, Instruction.size, Shape.size_of_resolve first.shape]
      rw [next] at rest
      have uses := labelUses_cons table instruction.address statement
        (place (instruction.address + statement.shape.size) statements)
      rw [place, uses, List.find?_append, Option.map_or, ← rest, find?_toList, ← own]
      exact firstFailure?_append _ _

end Checks

section Joining

variable {before behind : List Statement} {first second : Layout} (laidOutFirst : layout before = .ok first)
  (laidOutSecond : layout behind = .ok second)

include laidOutFirst laidOutSecond

/-- Of two programs that have encodings on their own, the second is refused behind the first for the first of its
    references that was moved too far. -/
theorem firstFailure?_append_of_encodable
    (encodableFirst : ∀ instruction ∈ first.instructions, instruction.Encodable)
    (encodableSecond : ∀ instruction ∈ second.instructions, instruction.Encodable) :
    firstFailure? (checksOf (programSize first.instructions + programSize second.instructions)
        (first.append second behind).instructions) =
      ((labelUses second.labels (place 0 behind)).find? (LabelUse.overflows (programSize first.instructions))).map
        (LabelUse.fault (programSize first.instructions)) := by
  obtain ⟨-, tilesFirst, -⟩ := layout_eq_ok laidOutFirst
  obtain ⟨-, tilesSecond, becomesSecond⟩ := layout_eq_ok laidOutSecond
  have passed := (checksOf_passed_iff tilesFirst).2
    ⟨encodableFirst, Nat.le_add_right _ (programSize second.instructions)⟩
  rw [← firstFailure?_relocateAll becomesSecond tilesSecond (Nat.le_refl _) encodableSecond, Layout.append, checksOf,
    List.flatMap_append, firstFailure?_append]
  simp only [checksOf] at passed
  rw [passed, Option.none_or]
  rfl

end Joining

section Bytes

variable {bytes others moved movedOthers : List UInt8}

theorem wordAt?_append_left {address word : Nat} (found : wordAt? bytes address = some word) :
    wordAt? (bytes ++ others) address = some word := by
  obtain ⟨high, low, first, second, value⟩ := Machine.wordAt?_eq_some_iff.1 found
  refine Machine.wordAt?_eq_some_iff.2 ⟨high, low, ?_, ?_, value⟩
  · rw [List.getElem?_append_left (List.getElem?_eq_some_iff.1 first).1, first]
  · rw [List.getElem?_append_left (List.getElem?_eq_some_iff.1 second).1, second]

theorem wordAt?_append_right (bytes others : List UInt8) (address : Nat) :
    wordAt? (bytes ++ others) (bytes.length + address) = wordAt? others address := by
  simp only [wordAt?, Nat.add_assoc, List.getElem?_append_right (Nat.le_add_right _ _), Nat.add_sub_cancel_left]

variable {offset : Nat}

theorem Moved.unchanged {fields : Set Nat} (none : ∀ place, place ∉ fields) (bytes : List UInt8) :
    Moved offset fields bytes bytes :=
  ⟨rfl, fun place member => absurd member (none place), fun _ _ => rfl⟩

/-- An instruction of which the operand is increased. -/
theorem Moved.operand {fields : Set Nat} {value : Nat} (only : ∀ place, place ∈ fields ↔ place = 1) (head : UInt8)
    (narrow : offset + value < UInt16.size) :
    Moved offset fields (head :: wordBytes value) (head :: wordBytes (offset + value)) where
  length := rfl
  field place member := by
    rw [only] at member
    subst member
    refine ⟨value, Machine.wordAt?_eq_some_iff.2 ⟨_, _, rfl, rfl, toNat_wordBytes (by omega)⟩, ?_⟩
    exact Machine.wordAt?_eq_some_iff.2 ⟨_, _, rfl, rfl, toNat_wordBytes narrow⟩
  kept index untouched := by
    rcases untouched 1 ((only 1).2 rfl) with before | behind
    · cases index with
      | zero => rfl
      | succ index => omega
    · rw [List.getElem?_eq_none behind, List.getElem?_eq_none behind]

/-- Two pieces with increased words, one behind the other. -/
theorem Moved.append {front back fields : Set Nat} (first : Moved offset front bytes moved)
    (second : Moved offset back others movedOthers)
    (parts : ∀ place, place ∈ fields ↔ place ∈ front ∨ ∃ inner ∈ back, place = bytes.length + inner) :
    Moved offset fields (bytes ++ others) (moved ++ movedOthers) where
  length := by rw [List.length_append, List.length_append, first.length, second.length]
  field place member := by
    rcases (parts place).1 member with here | ⟨inner, there, rfl⟩
    · obtain ⟨word, found, foundMoved⟩ := first.field place here
      exact ⟨word, wordAt?_append_left found, wordAt?_append_left foundMoved⟩
    · obtain ⟨word, found, foundMoved⟩ := second.field inner there
      refine ⟨word, by rwa [wordAt?_append_right], ?_⟩
      rwa [← first.length, wordAt?_append_right]
  kept index untouched := by
    rcases Nat.lt_or_ge index bytes.length with inside | behind
    · rw [List.getElem?_append_left inside, List.getElem?_append_left (first.length.symm ▸ inside)]
      exact first.kept index fun place here => untouched place ((parts place).2 (.inl here))
    · obtain ⟨inner, rfl⟩ := Nat.exists_eq_add_of_le behind
      rw [List.getElem?_append_right behind, List.getElem?_append_right (first.length.symm ▸ behind), first.length,
        Nat.add_sub_cancel_left]
      refine second.kept inner fun place there => ?_
      have apart := untouched (bytes.length + place) ((parts _).2 (.inr ⟨place, there, rfl⟩))
      omega

end Bytes

section Images

variable {offset start finish : Nat} {table : LabelTable}

/-- The bytes of a moved instruction: its operand is increased if it comes from a label. -/
theorem Statement.Becomes.moved {statement : Statement} {instruction : Instruction}
    (becomes : statement.Becomes table instruction)
    (narrow : ∀ use, labelUse? table instruction.address statement = some use → offset + use.target ≤ 65535) :
    Moved offset {field | field = 1 ∧ (labelUse? table instruction.address statement).isSome}
      instruction.shape.bytes (instruction.relocate offset statement).shape.bytes := by
  cases refers : statement.shape.reference? with
  | none =>
      have same : (instruction.relocate offset statement).shape = instruction.shape :=
        Shape.relocate_of_no_reference refers offset
      rw [same]
      refine Moved.unchanged (fun field member => ?_) _
      simp [labelUse?, refers] at member
  | some name =>
      obtain ⟨opcode, register, address, found, own, relocated⟩ :=
        Shape.framing_of_reference becomes.shape refers offset
      have use : labelUse? table instruction.address statement = some ⟨instruction.address, address⟩ := by
        simp [labelUse?, refers, LabelTable.address?_of_resolve found]
      have bytes : (instruction.relocate offset statement).shape.bytes = _ := Shape.bytes_of_framing relocated
      rw [bytes, Shape.bytes_of_framing own]
      exact Moved.operand (fun field => by simp [use]) _ (Nat.lt_succ_of_le (narrow _ use))

theorem address_of_labelUse? {address : Nat} {statement : Statement} {use : LabelUse}
    (found : labelUse? table address statement = some use) : use.address = address := by
  rw [labelUse?] at found
  obtain ⟨name, -, found⟩ := Option.bind_eq_some_iff.1 found
  obtain ⟨target, -, found⟩ := Option.bind_eq_some_iff.1 found
  cases found
  rfl

theorem le_address_of_mem_labelUses {statements : List Statement} {use : LabelUse}
    (member : use ∈ labelUses table (place start statements)) : start ≤ use.address := by
  induction statements generalizing start with
  | nil => simp [place, labelUses] at member
  | cons first rest ih =>
      rw [place, labelUses_cons] at member
      rcases List.mem_append.1 member with head | tail
      · exact Nat.le_of_eq (address_of_labelUse? (Option.mem_toList.1 head)).symm
      · exact Nat.le_trans (Nat.le_add_right _ _) (ih tail)

/-- The bytes of a moved program: exactly the operands that come from labels are increased. -/
theorem moved_relocateAll {statements : List Statement} {instructions : List Instruction}
    (becomes : List.Forall₂ (Statement.Becomes table) statements instructions)
    (tiles : Tiles start finish instructions)
    (narrow : ∀ use ∈ labelUses table (place start statements), offset + use.target ≤ 65535) :
    Moved offset {field | start + field ∈ operandFields (labelUses table (place start statements))}
      (programBytes instructions) (programBytes (relocateAll offset statements instructions)) := by
  induction becomes generalizing start with
  | nil => exact Moved.unchanged (fun field member => by simp [operandFields, labelUses, place] at member) _
  | @cons statement instruction statements instructions first _ ih =>
      obtain ⟨rfl, others⟩ := tiles
      have next : instruction.next = instruction.address + statement.shape.size := by
        rw [Instruction.next, Instruction.size, Shape.size_of_resolve first.shape]
      rw [place, ← next, labelUses_cons] at narrow ⊢
      have rest := ih others fun use member => narrow use (List.mem_append_right _ member)
      have own := first.moved fun use found => narrow use (List.mem_append_left _ (Option.mem_toList.2 found))
      refine own.append rest fun field => ?_
      rw [Shape.length_bytes]
      constructor
      · rintro ⟨use, member, here⟩
        rcases List.mem_append.1 member with head | tail
        · have found := Option.mem_toList.1 head
          have same := address_of_labelUse? found
          exact .inl ⟨by omega, Option.isSome_of_mem found⟩
        · have behind := le_address_of_mem_labelUses tail
          refine .inr ⟨use.address + 1 - instruction.next, ⟨use, tail, by omega⟩, ?_⟩
          simp only [Instruction.next, Instruction.size] at behind ⊢
          omega
      · rintro (⟨rfl, present⟩ | ⟨inner, ⟨use, tail, here⟩, rfl⟩)
        · obtain ⟨use, found⟩ := Option.isSome_iff_exists.1 present
          exact ⟨use, List.mem_append_left _ (Option.mem_toList.2 found), by rw [address_of_labelUse? found]⟩
        · refine ⟨use, List.mem_append_right _ tail, ?_⟩
          simp only [Instruction.next, Instruction.size] at here
          omega

end Images

section Programs

/-- A program that gets just the memory it needs is the bytes of its instructions. -/
theorem exact_image {source : String} {program : Program} (assembled : Program.assemble none source = .ok program)
    (small : programSize program.instructions < 2 ^ 61) :
    (∀ instruction ∈ program.instructions, instruction.Encodable) ∧
      program.memory.bytes.toList = programBytes program.instructions := by
  obtain ⟨encodable, -, -, bytes⟩ := image_of_assemble assembled (addressable_of_small small _)
  rw [size_of_assemble assembled, Nat.sub_self, List.replicate_zero, List.append_nil] at bytes
  exact ⟨encodable, bytes⟩

theorem parse_append {front back : String} {before behind : List Statement}
    (parsedFirst : Grammar.parse front = .ok before) (parsedSecond : Grammar.parse back = .ok behind) :
    Grammar.parse (front ++ "\n" ++ back) = .ok (before ++ behind) := by
  rw [Syntax.parse_eq_ok_iff] at parsedFirst parsedSecond ⊢
  rw [String.toList_append, String.toList_append, List.append_assoc]
  exact parsedFirst.append parsedSecond

section Outcome

variable {memoryBytes : Option Nat} {source : String} {statements : List Statement} {result : Layout}
  (parsed : Grammar.parse source = .ok statements) (laidOut : layout statements = .ok result)

include parsed laidOut

/-- Once a text is read and laid out, writing decides what becomes of it. -/
theorem assemble_eq_ok_iff_of_layout {program : Program} :
    Program.assemble memoryBytes source = .ok program ↔
      program.instructions = result.instructions ∧ program.labels = result.labels ∧
        writeAll result.instructions (Program.blankMemory memoryBytes result.instructions) =
          ⟨program.memory, none⟩ := by
  rw [Program.assemble_eq_ok_iff]
  constructor
  · rintro ⟨_, again, same, written⟩
    cases parsed.symm.trans again
    cases laidOut.symm.trans same
    exact ⟨rfl, rfl, written⟩
  · rintro ⟨instructions, labels, written⟩
    exact ⟨statements, parsed, by rw [laidOut, instructions, labels], by rwa [instructions]⟩

theorem exists_assemble_iff_of_layout :
    (∃ program, Program.assemble memoryBytes source = .ok program) ↔
      (writeAll result.instructions (Program.blankMemory memoryBytes result.instructions)).fault = none := by
  constructor
  · rintro ⟨program, assembled⟩
    obtain ⟨-, -, written⟩ := (assemble_eq_ok_iff_of_layout parsed laidOut).1 assembled
    rw [written]
  · intro success
    exact ⟨⟨result.instructions, result.labels, _⟩,
      (assemble_eq_ok_iff_of_layout parsed laidOut).2 ⟨rfl, rfl, congrArg (Written.mk _) success⟩⟩

theorem assemble_eq_error_iff_of_layout {fault : Fault} :
    Program.assemble memoryBytes source = .error fault ↔
      (writeAll result.instructions (Program.blankMemory memoryBytes result.instructions)).fault = some fault := by
  rw [Program.assemble_eq_error_iff]
  simp [parsed, laidOut]

end Outcome

end Programs

/-- Programs are relocated when they are concatenated.  Let two texts be assembled on their own, have no label in
    common, and have images of which all bits together can be addressed.  The first text, a line break and the second
    text are parsed as the statements of the first and then those of the second.  They are assembled if all addresses
    that labels of the second stand for are still words once they are moved behind the first.  Then the image is that
    of both, with exactly the operands that come from labels of the second increased, and so are the addresses of its
    labels.  Otherwise the fault is that of the first reference that was moved too far. -/
theorem concatenation_relocates {front back : String} {first second : Program} {before behind : List Statement}
    (assembledFirst : Program.assemble none front = .ok first)
    (assembledSecond : Program.assemble none back = .ok second)
    (parsedFirst : Grammar.parse front = .ok before) (parsedSecond : Grammar.parse back = .ok behind)
    (apart : ∀ name ∈ first.labels.names, name ∉ second.labels.names)
    (small : first.memory.size + second.memory.size < 2 ^ 61) :
    let offset := first.memory.size
    let uses := labelUses second.labels (place 0 behind)
    Grammar.parse (front ++ "\n" ++ back) = .ok (before ++ behind) ∧
      ((∃ program, Program.assemble none (front ++ "\n" ++ back) = .ok program) ↔
        ∀ use ∈ uses, offset + use.target ≤ 65535) ∧
      (∀ program, Program.assemble none (front ++ "\n" ++ back) = .ok program →
        (∃ moved, program.memory.bytes.toList = first.memory.bytes.toList ++ moved ∧
          Moved offset (operandFields uses) second.memory.bytes.toList moved) ∧
        ∀ name, program.labelAddress? name =
          (first.labelAddress? name).or ((second.labelAddress? name).map (offset + ·))) ∧
      ∀ fault, Program.assemble none (front ++ "\n" ++ back) = .error fault ↔
        ∃ use, uses.find? (LabelUse.overflows offset) = some use ∧ fault = use.fault offset := by
  obtain ⟨_, parsed, laidOutFirst, -⟩ := Program.assemble_eq_ok_iff.1 assembledFirst
  cases parsedFirst.symm.trans parsed
  obtain ⟨_, parsed, laidOutSecond, -⟩ := Program.assemble_eq_ok_iff.1 assembledSecond
  cases parsedSecond.symm.trans parsed
  have namesFirst : first.labels.names = definitions before := names_of_layout laidOutFirst
  have namesSecond : second.labels.names = definitions behind := names_of_layout laidOutSecond
  rw [namesFirst, namesSecond] at apart
  have parsed := parse_append parsedFirst parsedSecond
  have laidOut := layout_append laidOutFirst laidOutSecond apart
  have total := programSize_append laidOutFirst laidOutSecond apart
  have sizeFirst := size_of_assemble assembledFirst
  rw [sizeFirst, size_of_assemble assembledSecond] at small
  have addressable : Addressable none (front ++ "\n" ++ back) := by
    intro statements instructions again resolved
    cases parsed.symm.trans again
    rw [resolve, laidOut] at resolved
    cases resolved
    rwa [Option.getD_none, total]
  obtain ⟨encodableFirst, imageFirst⟩ :=
    exact_image assembledFirst (Nat.lt_of_le_of_lt (Nat.le_add_right _ _) small)
  obtain ⟨encodableSecond, imageSecond⟩ :=
    exact_image assembledSecond (Nat.lt_of_le_of_lt (Nat.le_add_left _ _) small)
  have stopped := writeAll_fault_of_layout addressable parsed laidOut
  rw [Option.getD_none, total,
    firstFailure?_append_of_encodable laidOutFirst laidOutSecond encodableFirst encodableSecond] at stopped
  have accepted : (∃ program, Program.assemble none (front ++ "\n" ++ back) = .ok program) ↔
      ∀ use ∈ labelUses second.labels (place 0 behind), programSize first.instructions + use.target ≤ 65535 := by
    rw [exists_assemble_iff_of_layout parsed laidOut, stopped, Option.map_eq_none_iff, List.find?_eq_none]
    simp [LabelUse.overflows]
  simp only [sizeFirst]
  refine ⟨parsed, accepted, ?_, ?_⟩
  · intro program assembled
    obtain ⟨instructions, labels, -⟩ := (assemble_eq_ok_iff_of_layout parsed laidOut).1 assembled
    obtain ⟨-, image⟩ := exact_image assembled (by rwa [instructions, total])
    obtain ⟨-, tilesSecond, becomesSecond⟩ := layout_eq_ok laidOutSecond
    have moved := moved_relocateAll becomesSecond tilesSecond (accepted.1 ⟨program, assembled⟩)
    simp only [Nat.zero_add, Set.ofPred_mem_eq] at moved
    refine ⟨⟨_, ?_, by rwa [imageSecond]⟩, ?_⟩
    · rw [image, instructions, imageFirst, Layout.append, programBytes, List.flatMap_append]
      rfl
    · intro name
      rw [Program.labelAddress?, labels, Layout.append, LabelTable.address?_append, LabelTable.address?_shift]
      rfl
  · intro fault
    rw [assemble_eq_error_iff_of_layout parsed laidOut, stopped, Option.map_eq_some_iff]
    exact exists_congr fun use => and_congr_right fun _ => eq_comm

/-- A loop that ends in a comment, and a program with a reference and a jump to a plain address. -/
def loopSource : String := "@top: jmp @top ; again"

def loopStatements : List Statement := [⟨["top"], .unary .jump none (some (.label "top"))⟩]

def loopProgram : Program where
  instructions := [⟨["top"], .unary .jump none (some (.direct 0)), 0⟩]
  labels := [("top", 0)]
  memory := .ofBytes [0x22, 0, 0]

def tailSource : String := "load r1, @x\njmp 0 @x: mem 7"

def tailStatements : List Statement :=
  [⟨[], .binary .load .r1 (.label "x")⟩, ⟨[], .unary .jump none (some (.direct 0))⟩, ⟨["x"], .data 7⟩]

def tailProgram : Program where
  instructions := [⟨[], .binary .load .r1 (.direct 6), 0⟩, ⟨[], .unary .jump none (some (.direct 0)), 3⟩,
    ⟨["x"], .data 7, 6⟩]
  labels := [("x", 6)]
  memory := .ofBytes [0x46, 0, 6, 0x22, 0, 0, 7]

theorem concatenation_relocates_loop :
    Program.assemble none loopSource = .ok loopProgram ∧ Program.assemble none tailSource = .ok tailProgram ∧
      Grammar.parse (loopSource ++ "\n" ++ tailSource) = .ok (loopStatements ++ tailStatements) ∧
      ∃ program, Program.assemble none (loopSource ++ "\n" ++ tailSource) = .ok program ∧
        program.labelAddress? "x" = some 9 := by
  have assembledFirst : Program.assemble none loopSource = .ok loopProgram := by cbv
  have assembledSecond : Program.assemble none tailSource = .ok tailProgram := by cbv
  have parsedFirst : Grammar.parse loopSource = .ok loopStatements := by cbv
  have parsedSecond : Grammar.parse tailSource = .ok tailStatements := by cbv
  have apart : ∀ name ∈ loopProgram.labels.names, name ∉ tailProgram.labels.names := by decide
  obtain ⟨parsed, accepted, image, -⟩ :=
    concatenation_relocates assembledFirst assembledSecond parsedFirst parsedSecond apart (by decide)
  obtain ⟨program, assembled⟩ := accepted.2 (by decide)
  refine ⟨assembledFirst, assembledSecond, parsed, program, assembled, ?_⟩
  rw [(image program assembled).2]
  decide

end WordMachine.Assembly
