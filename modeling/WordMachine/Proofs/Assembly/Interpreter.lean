import WordMachine.Proofs.Assembly.Labels
import WordMachine.Proofs.Machine.Refinement

/-! # Programs without their images

An interpreter of assembly programs that never looks at the bytes of an instruction.  It stands at an instruction
of the list and takes operands as they are written; a jump through a label goes to the instruction that carries
the label, and falling through goes to the next instruction of the list.
-/

namespace WordMachine.Assembly

open Reference (Data)

/-- A program as it is written and as it is laid out. -/
structure Listing where
  statements : List Statement
  instructions : List Instruction

/-- Where an interpreter stands: at an instruction of the list, or at an address where none begins. -/
inductive Place where
  | listed (index : Nat)
  | outside (address : Nat)
  deriving DecidableEq

namespace Listing

structure State where
  data : Data
  place : Place
  halted : Bool

structure Outcome where
  result : Except Machine.Fault Machine.Status
  state : State

variable (listing : Listing)

/-- The address of an instruction of the list, or the address behind the last one. -/
def address (index : Nat) : Nat :=
  (listing.instructions[index]?.map Instruction.address).getD (programSize listing.instructions)

def addressOf : Place → Nat
  | .listed index => listing.address index
  | .outside address => address

def placeAt (index : Nat) : Place :=
  if index < listing.instructions.length then .listed index else .outside (programSize listing.instructions)

/-- The instruction that begins at an address. -/
def locate (address : Nat) : Place :=
  match listing.instructions.findIdx? (·.address = address) with
  | some index => .listed index
  | none => .outside address

/-- The instruction that carries a label. -/
def carrier? (label : String) : Option Nat := listing.instructions.findIdx? (label ∈ ·.labels)

/-- The number that an argument gives, which for a label is the address of the instruction that carries it. -/
def field? : Argument String → Option Nat
  | .accumulator => none
  | .immediate value => some value
  | .direct address => some address
  | .label name => (listing.carrier? name).map listing.address

def target (argument : Option (Argument String)) (operand : Nat) : Place :=
  match argument with
  | some (.label name) => (listing.carrier? name).elim (.outside operand) .listed
  | _ => listing.locate operand

def execute (index : Nat) (framing : Framing String) (operand : Nat) (data : Data) : Outcome :=
  let control := Reference.goesOn framing.head data
  match Reference.refusal? framing.head operand data with
  | some refusal =>
      ⟨.error (.ofRefusal (UInt64.ofNat (listing.address index)) data.bytes.length refusal),
        data, listing.placeAt (index + 1), false⟩
  | none =>
      ⟨.ok (.ofControl control), Reference.perform framing.head operand data,
        if control = .jump then listing.target framing.argument operand else listing.placeAt (index + 1),
        control = .halt⟩

/-- Performs the operation that an interpreter stands at, if it stands at one. -/
def step? (state : State) : Option Outcome :=
  match state.place with
  | .outside _ => none
  | .listed index => do
      let statement ← listing.statements[index]?
      let framing ← statement.shape.framing?
      let field := framing.argument.bind listing.field?
      match Reference.operandFrom? field state.data framing.head with
      | some operand => return listing.execute index framing operand state.data
      | none =>
          -- The operand names an address where no word stands.
          let address ← field
          return ⟨.error (.memory (.outOfBounds (8 * address) 16 (8 * state.data.bytes.length))), state⟩

/-- The first steps of a run, up to the first halt or fault. -/
def trace : Nat → State → List Outcome
  | 0, _ => []
  | steps + 1, state =>
      match listing.step? state with
      | none => []
      | some outcome =>
          outcome ::
            match outcome.result with
            | .ok .running => trace steps outcome.state
            | _ => []

def start (data : Data) : State := ⟨data, listing.placeAt 0, false⟩

/-- What is to be seen of an interpreter: the data, the address of its instruction, and whether it has halted. -/
def observe (state : State) : Reference.State := ⟨state.data, listing.addressOf state.place, state.halted⟩

end Listing

/-- The instructions of a list that tiles memory begin at different addresses. -/
theorem Tiles.address_lt {start finish : Nat} {instructions : List Instruction}
    (tiles : Tiles start finish instructions) {i j : Nat} (order : i < j) (inside : j < instructions.length) :
    instructions[i].address < instructions[j].address := by
  have apart := List.pairwise_iff_getElem.1 tiles.disjoint i j (by omega) inside order
  have positive := instructions[i].shape.size_pos
  simp only [Instruction.next, Instruction.size] at apart
  omega

theorem Tiles.address_succ {start finish : Nat} {instructions : List Instruction}
    (tiles : Tiles start finish instructions) {index : Nat} {instruction : Instruction}
    (found : instructions[index]? = some instruction) :
    (instructions[index + 1]?.map Instruction.address).getD finish = instruction.next := by
  induction instructions generalizing start index with
  | nil => simp at found
  | cons first rest ih =>
      cases index with
      | succ index => exact ih tiles.2 found
      | zero =>
          cases found
          cases rest with
          | nil => exact tiles.2.symm
          | cons second rest => exact tiles.2.1

namespace Listing

variable {listing : Listing}

theorem addressOf_locate (address : Nat) : listing.addressOf (listing.locate address) = address := by
  rw [locate]
  split
  next index found =>
    obtain ⟨inside, begins, -⟩ := List.findIdx?_eq_some_iff_getElem.1 found
    rw [addressOf, Listing.address, List.getElem?_eq_getElem inside]
    simpa using begins
  next => rfl

section Tiled

variable (tiles : Tiles 0 (programSize listing.instructions) listing.instructions)

include tiles

theorem locate_address {index : Nat} (inside : index < listing.instructions.length) :
    listing.locate (listing.address index) = .listed index := by
  have here : listing.address index = listing.instructions[index].address := by
    simp [address, List.getElem?_eq_getElem inside]
  have found : listing.instructions.findIdx? (·.address = listing.address index) = some index := by
    apply List.findIdx?_eq_some_iff_getElem.2
    refine ⟨inside, by simp [here], ?_⟩
    intro earlier order
    have := tiles.address_lt order inside
    simp only [here, decide_eq_true_eq]
    omega
  rw [locate, found]

/-- A place in the list is found by its address. -/
theorem placeAt_eq_locate (index : Nat) : listing.placeAt index = listing.locate (listing.address index) := by
  rw [placeAt]
  split
  next inside => rw [locate_address tiles inside]
  next behind =>
    have here : listing.address index = programSize listing.instructions := by
      simp [address, List.getElem?_eq_none (Nat.le_of_not_lt behind)]
    have absent : listing.instructions.findIdx? (·.address = listing.address index) = none := by
      apply List.findIdx?_eq_none_iff.2
      intro instruction member
      have inside := (tiles.bounds member).2
      have positive := instruction.shape.size_pos
      simp only [Instruction.next, Instruction.size] at inside
      simp only [here, decide_eq_false_iff_not]
      omega
    rw [locate, absent, here]

theorem address_succ {index : Nat} {instruction : Instruction}
    (found : listing.instructions[index]? = some instruction) : listing.address (index + 1) = instruction.next :=
  tiles.address_succ found

end Tiled

end Listing

namespace Listing

variable {listing : Listing}

/-- A label stands for the address of the instruction that carries it. -/
theorem carrier_of_resolve {table : LabelTable} {name : String} {address : Nat}
    (tiles : Tiles 0 (programSize listing.instructions) listing.instructions)
    (becomes : List.Forall₂ (Statement.Becomes table) listing.statements listing.instructions)
    (labels : labelTable listing.statements = .ok table) (resolved : table.resolve name = .ok address) :
    ∃ index, listing.carrier? name = some index ∧ index < listing.instructions.length ∧
      listing.address index = address := by
  have found := LabelTable.address?_of_resolve resolved
  rw [LabelTable.address?, LabelTable.extend_eq_ok labels, List.nil_append, labelsOf_place tiles becomes,
    lookup_labels, Option.map_eq_some_iff] at found
  obtain ⟨instruction, found, rfl⟩ := found
  obtain ⟨carries, index, inside, rfl, first⟩ := List.find?_eq_some_iff_getElem.1 found
  refine ⟨index, List.findIdx?_eq_some_iff_getElem.2 ⟨inside, carries, ?_⟩, inside, ?_⟩
  · intro earlier order
    simpa using first earlier order
  · simp [Listing.address, List.getElem?_eq_getElem inside]

end Listing

end WordMachine.Assembly
