import Mathlib.Data.List.Basic
import WordMachine.Shell.Files

/-! # What a written file changes

A file that is written is read with its new text, under the name under which it was written.  Whatever could be read
before at another place can be read there as before: every directory stays one, and a device is not on the way to a
place that a name leads to.
-/

namespace WordMachine.Shell

/-- A place on the way to another place. -/
def Place.Above : Place → Place → Prop
  | inside path, inside longer => path <+: longer ∧ path ≠ longer
  | outside path, outside longer => path <+: longer ∧ path ≠ longer
  | _, _ => False

section Above

variable {path shorter : Path} {place other dir : Place} {step : String}

theorem eq_or_prefix_of_concat (front : shorter <+: path ++ [step]) (different : shorter ≠ path ++ [step]) :
    shorter = path ∨ (shorter <+: path ∧ shorter ≠ path) := by
  have front := (List.prefix_concat_iff.1 front).resolve_left different
  by_cases same : shorter = path
  · exact .inl same
  · exact .inr ⟨front, same⟩

theorem prefix_of_dropLast (front : shorter <+: path.dropLast) (different : shorter ≠ path.dropLast) :
    shorter <+: path ∧ shorter ≠ path := by
  refine ⟨front.trans path.dropLast_prefix, ?_⟩
  rintro rfl
  exact different (front.eq_of_length_le (by simp))

theorem Place.Above.of_child (above : other.Above (dir.child step)) : other = dir ∨ other.Above dir := by
  cases dir with
  | inside path =>
      cases other with
      | inside shorter => exact (eq_or_prefix_of_concat above.1 above.2).imp_left (congrArg inside)
      | outside shorter => exact above.elim
  | outside path =>
      cases other with
      | inside shorter => exact above.elim
      | outside shorter => exact (eq_or_prefix_of_concat above.1 above.2).imp_left (congrArg outside)

/-- Only the root stands above what is around the working directory. -/
theorem Place.Above.of_parent (above : other.Above dir.parent) : other = outside [] ∨ other.Above dir := by
  rcases dir with (_ | ⟨first, path⟩) | path
  · cases other with
    | inside shorter => exact above.elim
    | outside shorter =>
        obtain rfl | ⟨front, -⟩ := @eq_or_prefix_of_concat [] _ _ above.1 above.2
        · exact .inl rfl
        · exact .inl (congrArg outside (List.prefix_nil.1 front))
  · cases other with
    | inside shorter => exact .inr (prefix_of_dropLast above.1 above.2)
    | outside shorter => exact above.elim
  · cases other with
    | inside shorter => exact above.elim
    | outside shorter => exact .inr (prefix_of_dropLast above.1 above.2)

end Above

namespace FileSystem

variable {system : FileSystem} {place other dir start finish : Place} {name text content : String}
  {steps : List String}

section Nodes

theorem systemNode?_ne_file (path : Path) : systemNode? path ≠ some (.file text) := by
  unfold systemNode?
  split <;> simp

theorem node?_eq_file_iff : system.node? place = some (.file text) ↔ system.text? place = some text := by
  unfold node?
  cases system.text? place with
  | some content => simp
  | none =>
      simp only [reduceCtorEq, iff_false]
      split
      · simp
      · split
        · simp
        · simp
        · exact systemNode?_ne_file _

theorem hasFileBelow_iff : system.hasFileBelow dir = true ↔ ∃ file ∈ system.files, dir.Above file.1 := by
  rw [hasFileBelow, List.any_eq_true]
  refine exists_congr ?_
  rintro ⟨there, content⟩
  refine and_congr_right fun _ => ?_
  cases dir <;> cases there <;> simp [Place.Above, List.isPrefixOf_iff_prefix]

theorem hasFileBelow_put_iff : (system.put place text).hasFileBelow dir = true ↔
    dir.Above place ∨ system.hasFileBelow dir = true := by
  simp only [hasFileBelow_iff, put, List.mem_cons, List.mem_filter, decide_eq_true_eq]
  constructor
  · rintro ⟨file, rfl | ⟨listed, -⟩, above⟩
    · exact .inl above
    · exact .inr ⟨file, listed, above⟩
  · rintro (above | ⟨file, listed, above⟩)
    · exact ⟨_, .inl rfl, above⟩
    · by_cases same : file.1 = place
      · exact ⟨_, .inl rfl, same ▸ above⟩
      · exact ⟨file, .inr ⟨listed, same⟩, above⟩

theorem node?_put_self : (system.put place text).node? place = some (.file text) := by
  rw [node?_eq_file_iff, text?_put, if_pos rfl]

theorem node?_put_of_not_above (different : other ≠ place) (apart : ¬ other.Above place) :
    (system.put place text).node? other = system.node? other := by
  have below : (system.put place text).hasFileBelow other = system.hasFileBelow other := by
    rw [Bool.eq_iff_iff, hasFileBelow_put_iff]
    exact or_iff_right apart
  simp only [node?, text?_put, if_neg different, below]

/-- A file stays what it is unless another one is put in its place. -/
theorem node?_put_of_file (file : system.node? other = some (.file content)) (different : other ≠ place) :
    (system.put place text).node? other = some (.file content) := by
  rw [node?_eq_file_iff] at file ⊢
  rw [text?_put, if_neg different, file]

/-- A directory stays one unless a file is put in its place. -/
theorem node?_put_of_directory (directory : system.node? dir = some .directory) (different : dir ≠ place) :
    (system.put place text).node? dir = some .directory := by
  by_cases above : dir.Above place
  · have below : (system.put place text).hasFileBelow dir = true := hasFileBelow_put_iff.2 (.inl above)
    have none : system.text? dir = none := by
      rw [Option.eq_none_iff_forall_ne_some]
      intro content known
      rw [node?_eq_file_iff.2 known] at directory
      cases directory
    simp only [node?, text?_put, if_neg different, none, below, if_true]
  · rw [node?_put_of_not_above different above, directory]

end Nodes

section Ways

theorem follow_cons {step : String} (directory : system.node? start = some .directory) :
    system.follow start (step :: steps) =
      if step = "." then system.follow start steps
      else if step = ".." then system.follow start.parent steps
      else if stepLimit < step.utf8ByteSize then .error .nameTooLong
      else system.follow (start.child step) steps := by
  rw [follow, directory]

theorem directory_of_follow_cons {step : String} (followed : system.follow start (step :: steps) = .ok finish) :
    system.node? start = some .directory := by
  rw [follow] at followed
  split at followed
  · cases followed
  next directory => exact directory
  · cases followed

/-- A way leads to the same place as long as the directories on it stay. -/
theorem follow_of_directories {later : FileSystem}
    (stay : ∀ dir, system.node? dir = some .directory → later.node? dir = some .directory)
    (followed : system.follow start steps = .ok finish) : later.follow start steps = .ok finish := by
  induction steps generalizing start with
  | nil => exact followed
  | cons step steps ih =>
      have directory := directory_of_follow_cons followed
      rw [follow_cons directory] at followed
      rw [follow_cons (stay start directory)]
      split_ifs at followed ⊢
      · exact ih followed
      · exact ih followed
      · exact ih followed

theorem locate_of_directories {later : FileSystem}
    (stay : ∀ dir, system.node? dir = some .directory → later.node? dir = some .directory)
    (located : system.locate name = .ok place) : later.locate name = .ok place := by
  unfold locate at located ⊢
  split_ifs at located ⊢
  exact follow_of_directories stay located

/-- No device stands on the way to a place. -/
def Clear (system : FileSystem) (place : Place) : Prop :=
  ∀ other, other.Above place → ∀ device, system.node? other ≠ some (.device device)

theorem Clear.child (clear : system.Clear dir) (directory : system.node? dir = some .directory) (step : String) :
    system.Clear (dir.child step) := by
  intro other above device
  rcases above.of_child with rfl | above
  · simp [directory]
  · exact clear other above device

theorem root_ne_device (device : Device) : system.node? (.outside []) ≠ some (.device device) := by
  unfold node?
  split
  · simp
  · split <;> simp [systemNode?]

theorem Clear.parent (clear : system.Clear dir) : system.Clear dir.parent := by
  intro other above device
  rcases above.of_parent with rfl | above
  · exact root_ne_device device
  · exact clear other above device

theorem clear_start (name : String) : system.Clear (Place.startOf name) := by
  intro other above
  unfold Place.startOf at above
  split_ifs at above
  · cases other with
    | inside path => exact above.elim
    | outside path => exact absurd (List.prefix_nil.1 above.1) above.2
  · cases other with
    | inside path => exact absurd (List.prefix_nil.1 above.1) above.2
    | outside path => exact above.elim

theorem clear_of_follow (clear : system.Clear start) (followed : system.follow start steps = .ok finish) :
    system.Clear finish := by
  induction steps generalizing start with
  | nil =>
      cases followed
      exact clear
  | cons step steps ih =>
      have directory := directory_of_follow_cons followed
      rw [follow_cons directory] at followed
      split_ifs at followed
      · exact ih clear followed
      · exact ih clear.parent followed
      · exact ih (clear.child directory step) followed

theorem clear_of_locate (located : system.locate name = .ok place) : system.Clear place := by
  unfold locate at located
  split_ifs at located
  exact clear_of_follow (clear_start name) located

end Ways

section Texts

theorem le_of_locate (located : system.locate name = .ok place) : name.utf8ByteSize ≤ nameLimit := by
  unfold locate at located
  split_ifs at located with _ long
  exact Nat.le_of_not_lt long

/-- A text goes to a file if there is a file or nothing at the place that the name leads to. -/
theorem target_eq_file_iff : system.target name = .ok (.file place) ↔ Place.asksForDirectory name = false ∧
    system.locate name = .ok place ∧
    (system.node? place = none ∨ ∃ text, system.node? place = some (.file text)) := by
  unfold target
  simp only [bind, Except.bind]
  constructor
  · intro goes
    split at goes
    · split at goes
      · cases goes
      · cases goes
    next short =>
      cases located : system.locate name with
      | error error =>
          rw [located] at goes
          cases goes
      | ok finish =>
          -- A name that leads somewhere is not too long, so it does not ask for a directory.
          have plain : Place.asksForDirectory name = false := by
            cases asks : Place.asksForDirectory name with
            | false => rfl
            | true => simp [asks, le_of_locate located] at short
          simp only [located] at goes
          split at goes
          · cases goes
          · cases goes
          next text file =>
            cases goes
            exact ⟨plain, rfl, .inr ⟨text, file⟩⟩
          next nothing =>
            cases goes
            exact ⟨plain, rfl, .inl nothing⟩
  · rintro ⟨plain, located, nothing | ⟨text, file⟩⟩
    · simp only [plain, located, nothing]
      rfl
    · simp only [plain, located, file]
      rfl

theorem read_eq_ok_iff : system.read name = .ok text ↔ Place.asksForDirectory name = false ∧
    ∃ place, system.locate name = .ok place ∧ (system.node? place = some (.file text) ∨
      text = "" ∧ ∃ device, system.node? place = some (.device device)) := by
  unfold read
  simp only [bind, Except.bind]
  cases system.locate name with
  | error error => simp
  | ok place =>
      simp only [Except.ok.injEq, exists_eq_left']
      cases system.node? place with
      | none => simp
      | some node =>
          cases node <;> cases Place.asksForDirectory name <;> simp [eq_comm]

theorem directories_stay (goes : system.target name = .ok (.file place)) (dir : Place)
    (directory : system.node? dir = some .directory) : (system.put place text).node? dir = some .directory := by
  refine node?_put_of_directory directory ?_
  rintro rfl
  obtain ⟨-, -, nothing | ⟨text, file⟩⟩ := target_eq_file_iff.1 goes
  · rw [nothing] at directory
    cases directory
  · rw [file] at directory
    cases directory

/-- What is written under a name is read under that name. -/
theorem read_put (goes : system.target name = .ok (.file place)) : (system.put place text).read name = .ok text := by
  obtain ⟨plain, located, -⟩ := target_eq_file_iff.1 goes
  exact read_eq_ok_iff.2 ⟨plain, place, locate_of_directories (directories_stay goes) located, .inl node?_put_self⟩

/-- What can be read somewhere else is read as before. -/
theorem read_put_of_ne {kept : String} (goes : system.target name = .ok (.file place))
    (reads : system.read kept = .ok content) (different : system.locate kept ≠ .ok place) :
    (system.put place text).read kept = .ok content := by
  obtain ⟨plain, other, located, node⟩ := read_eq_ok_iff.1 reads
  have apart : other ≠ place := by
    rintro rfl
    exact different located
  refine read_eq_ok_iff.2 ⟨plain, other, locate_of_directories (directories_stay goes) located, ?_⟩
  rcases node with file | ⟨rfl, device, standing⟩
  · exact .inl (node?_put_of_file file apart)
  · have clear := clear_of_locate (target_eq_file_iff.1 goes).2.1
    have aside : ¬ other.Above place := fun above => clear other above device standing
    exact .inr ⟨rfl, device, (node?_put_of_not_above apart aside).trans standing⟩

end Texts

end FileSystem

end WordMachine.Shell
