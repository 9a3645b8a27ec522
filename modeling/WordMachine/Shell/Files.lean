import WordMachine.Shell.Place

/-! # Files

The text files, directories and devices that a command can reach by name, and what can be wrong with a name.
Beside the files that are given there is only what every system has: the directories below the root, and some
devices.

`text?_put` is the law of the writing of a file.
-/

namespace WordMachine.Shell

inductive FileError where
  | missing
  /-- The name leads through something that is no directory. -/
  | notDirectory
  | isDirectory
  /-- The name or a step of it is longer than a name can be. -/
  | nameTooLong
  | noSpace
  | notText
  | other (text : String)
  deriving Repr, DecidableEq, BEq

def FileError.message : FileError → String
  | .missing => "No such file or directory (os error 2)"
  | .notDirectory => "Not a directory (os error 20)"
  | .isDirectory => "Is a directory (os error 21)"
  | .nameTooLong => "File name too long (os error 36)"
  | .noSpace => "No space left on device (os error 28)"
  | .notText => "stream did not contain valid UTF-8"
  | .other text => text

/-- Something with the name of a file that keeps no text. -/
inductive Device where
  /-- Takes every text and gives none. -/
  | null
  | full
  | output
  | errorOutput
  deriving Repr, DecidableEq, BEq

/-- What stands at a place. -/
inductive Node where
  | directory
  | file (text : String)
  | device (device : Device)
  deriving Repr, DecidableEq, BEq

/-- The directories that every system has below its root. -/
def systemDirectories : List String :=
  ["bin", "dev", "etc", "home", "lib", "media", "mnt", "opt", "proc", "root", "run", "sbin", "srv", "sys", "tmp",
   "usr", "var"]

/-- What every system has at a way from the root. -/
def systemNode? : Path → Option Node
  | [] => some .directory
  | [name] => if name ∈ systemDirectories then some .directory else none
  | ["dev", "null"] | ["dev", "stdin"] => some (.device .null)
  | ["dev", "full"] => some (.device .full)
  | ["dev", "stdout"] => some (.device .output)
  | ["dev", "stderr"] => some (.device .errorOutput)
  | _ => none

/-- How many bytes a step of a name can have. -/
def stepLimit : Nat := 255

/-- How many bytes a name can have. -/
def nameLimit : Nat := 4095

/-- The files that are given, each with its place and its text. -/
structure FileSystem where
  files : List (Place × String)
  deriving Repr, DecidableEq, BEq

namespace FileSystem

/-- Files in the working directory, which are given by name. -/
def ofFiles (files : List (String × String)) : FileSystem :=
  ⟨files.map fun (name, text) => (.inside (Place.stepsOf name), text)⟩

def text? (system : FileSystem) (place : Place) : Option String := system.files.lookup place

/-- Whether a file is given that stands below a place. -/
def hasFileBelow (system : FileSystem) (place : Place) : Bool :=
  system.files.any fun (other, _) =>
    match place, other with
    | .inside path, .inside longer | .outside path, .outside longer => path.isPrefixOf longer && path ≠ longer
    | _, _ => false

def node? (system : FileSystem) (place : Place) : Option Node :=
  match system.text? place with
  | some text => some (.file text)
  | none =>
      if system.hasFileBelow place then some .directory
      else
        match place with
        | .inside [] => some .directory
        | .inside _ => none
        | .outside path => systemNode? path

/-- Follows steps from a place.  A step can only be taken from a directory; at the end anything may stand, or
    nothing. -/
def follow (system : FileSystem) (place : Place) : List String → Except FileError Place
  | [] => .ok place
  | step :: rest =>
      match system.node? place with
      | none => .error .missing
      | some .directory =>
          if step = "." then system.follow place rest
          else if step = ".." then system.follow place.parent rest
          else if stepLimit < step.utf8ByteSize then .error .nameTooLong
          else system.follow (place.child step) rest
      | some _ => .error .notDirectory

/-- The place that a name leads to. -/
def locate (system : FileSystem) (name : String) : Except FileError Place :=
  if name = "" then .error .missing
  else if nameLimit < name.utf8ByteSize then .error .nameTooLong
  else system.follow (Place.startOf name) (Place.stepsOf name)

/-- The text of the file with a name.  A device gives an empty text. -/
def read (system : FileSystem) (name : String) : Except FileError String := do
  let node? := system.node? (← system.locate name)
  match node? with
  | none => .error .missing
  | some .directory => .error .isDirectory
  | some node =>
      if Place.asksForDirectory name then .error .notDirectory
      else
        match node with
        | .file text => .ok text
        | _ => .ok ""

/-- Where a text goes that is written under a name. -/
inductive Target where
  | file (place : Place)
  | device (device : Device)
  deriving Repr, DecidableEq, BEq

/-- Where a text goes that is written under a name; a file need not be there yet. -/
def target (system : FileSystem) (name : String) : Except FileError Target := do
  if Place.asksForDirectory name && name.utf8ByteSize ≤ nameLimit then
    -- A text cannot be written to a directory, but what is wrong on the way there is noticed first.
    let way := (Place.stepsOf name).dropLast ++ ["."]
    let _ ← system.follow (Place.startOf name) way
    .error .isDirectory
  let place ← system.locate name
  match system.node? place with
  | some .directory => .error .isDirectory
  | some (.device device) => return .device device
  | some (.file _) | none => return .file place

/-- Gives the file at a place a text; the file is made if it is not there. -/
def put (system : FileSystem) (place : Place) (text : String) : FileSystem :=
  ⟨(place, text) :: system.files.filter fun (other, _) => other ≠ place⟩

/-- The files in the working directory, by name, that are new or have another text than before. -/
def changes (before after : FileSystem) : List (String × String) :=
  after.files.filterMap fun
    | (.inside path, text) =>
        if before.text? (.inside path) = some text then none else some ("/".intercalate path, text)
    | (.outside _, _) => none

/-- A file has the text that was put into it last, and no other file changes. -/
theorem text?_put (system : FileSystem) (place other : Place) (text : String) :
    (system.put place text).text? other = if other = place then some text else system.text? other := by
  by_cases same : other = place
  · simp [text?, put, same]
  · have differs : (other == place) = false := beq_false_of_ne same
    have kept : ∀ files : List (Place × String),
        List.lookup other (files.filter fun file => file.1 ≠ place) = List.lookup other files := by
      intro files
      induction files with
      | nil => rfl
      | cons file files ih =>
          obtain ⟨there, content⟩ := file
          by_cases replaced : there = place
          · rw [List.filter_cons, if_neg (by simp [replaced]), ih, List.lookup_cons, replaced, differs]
          · by_cases found : other = there <;> simp_all [List.lookup_cons]
    rw [if_neg same, text?, put, List.lookup_cons, differs]
    exact kept system.files

end FileSystem

end WordMachine.Shell
