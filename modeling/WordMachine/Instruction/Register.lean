/-! # Registers

The three registers of the machine, their two-bit tags, and a file of their contents.
-/

namespace WordMachine

/-- A register of the machine; `r0` is the accumulator. -/
inductive Register where
  | r0
  | r1
  | r2
  deriving Repr, DecidableEq, BEq

namespace Register

def all : List Register := [.r0, .r1, .r2]

def tagBits : Nat := 2

/-- The register that operands come from where an instruction names none. -/
def accumulator : Register := .r0

def tag : Register → Nat
  | .r0 => 0
  | .r1 => 1
  | .r2 => 2

def ofTag? (tag : Nat) : Option Register := all[tag]?

def name (register : Register) : String := s!"R{register.tag}"

@[simp] theorem ofTag?_tag (register : Register) : ofTag? register.tag = some register := by
  cases register <;> rfl

theorem tag_lt (register : Register) : register.tag < 1 <<< tagBits := by
  cases register <;> decide

theorem tag_of_ofTag? {tag : Nat} {register : Register} (found : ofTag? tag = some register) :
    register.tag = tag := by
  have bound : tag < all.length := (List.getElem?_eq_some_iff.1 found).1
  have cases : ∀ tag < all.length, (ofTag? tag).map Register.tag = some tag := by decide
  simpa [found] using cases tag bound

end Register

structure RegisterFile where
  r0 : UInt16
  r1 : UInt16
  r2 : UInt16
  deriving Repr, DecidableEq, BEq

namespace RegisterFile

def zero : RegisterFile := ⟨0, 0, 0⟩

def get (file : RegisterFile) : Register → UInt16
  | .r0 => file.r0
  | .r1 => file.r1
  | .r2 => file.r2

def set (file : RegisterFile) (register : Register) (word : UInt16) : RegisterFile :=
  match register with
  | .r0 => { file with r0 := word }
  | .r1 => { file with r1 := word }
  | .r2 => { file with r2 := word }

def toList (file : RegisterFile) : List UInt16 := Register.all.map file.get

theorem get_set (file : RegisterFile) (register other : Register) (word : UInt16) :
    (file.set register word).get other = if other = register then word else file.get other := by
  cases register <;> cases other <;> rfl

end RegisterFile

end WordMachine
