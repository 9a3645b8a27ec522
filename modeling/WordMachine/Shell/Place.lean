/-! # Places of files

A name is a way through the tree of directories, from its root or else from the working directory.  Where the
working directory stands in the tree is not known, only what is above it: so a name can lead out of it, but no
name leads back from there.
-/

namespace WordMachine.Shell

/-- The names of the directories on a way, and of what stands at its end. -/
abbrev Path : Type := List String

/-- A place in the tree of directories, where something may stand or not. -/
inductive Place where
  /-- A way from the working directory downwards. -/
  | inside (path : Path)
  /-- A way from the root downwards, not through the working directory. -/
  | outside (path : Path)
  deriving Repr, DecidableEq

namespace Place

/-- The directory in which the working directory stands. -/
def aroundWorking : Path := ["tmp"]

/-- The directory above a place; the root is above itself. -/
def parent : Place → Place
  | inside [] => outside aroundWorking
  | inside path => inside path.dropLast
  | outside path => outside path.dropLast

def child (name : String) : Place → Place
  | inside path => inside (path ++ [name])
  | outside path => outside (path ++ [name])

/-- The place from which a name is followed. -/
def startOf (name : String) : Place :=
  if name.toList.head? = some '/' then outside [] else inside []

/-- The steps that a name consists of; slashes in a row count as one. -/
def stepsOf (name : String) : List String := (name.splitOn "/").filter (· ≠ "")

/-- Whether a name ends in a slash, which asks for a directory. -/
def asksForDirectory (name : String) : Bool := name.toList.getLast? = some '/'

@[simp] theorem parent_child_inside (name : String) (path : Path) :
    (child name (inside path)).parent = inside path := by
  -- A way that ends in a name is not the empty one, so it can be shortened.
  cases path with
  | nil => rfl
  | cons first rest => exact congrArg inside List.dropLast_concat

@[simp] theorem parent_child_outside (name : String) (path : Path) :
    (child name (outside path)).parent = outside path := by
  simp [child, parent]

end Place

end WordMachine.Shell
