import WordMachine.Proofs.Assembly.Lexemes
import WordMachine.Shell.Standard

/-! # How command lines are read

The words of a command in their usual order are read as that command: a name of a file as itself, an encoding and a
number by their texts.  `ReadsArguments` says so of a library, and `readsArguments_standard` of the one at hand.
-/

namespace WordMachine.Shell

/-- A word that is taken for the name of a file. -/
structure IsFileName (word : String) : Prop where
  nonempty : word ≠ ""
  value : isValue word = true

/-- A word that is taken for an encoding. -/
def Names (word : String) (encoding : Encoding) : Prop := Encoding.ofName? word = .ok encoding

/-- An option with its value, if there is one. -/
def settingWords (option : String) : Option String → List String
  | none => []
  | some value => [option, value]

def assembleWords (source image format : String) (memoryBytes : Option Nat) : List String :=
  "assemble" :: source :: "-o" :: image :: "-f" :: format ::
    settingWords "--memory-bytes" (memoryBytes.map toString)

def runImageWords (image format : String) (maxSteps : Option Nat) (dump : Option String) : List String :=
  "run" :: image :: "-f" :: format ::
    (settingWords "--max-steps" (maxSteps.map toString) ++ settingWords "--dump" dump)

def runSourceWords (source : String) (memoryBytes maxSteps : Option Nat) (dump : Option String) : List String :=
  "run" :: source :: "--source" :: (settingWords "--memory-bytes" (memoryBytes.map toString) ++
    (settingWords "--max-steps" (maxSteps.map toString) ++ settingWords "--dump" dump))

/-- What is documented of libraries that read command lines: a word that is no option stands for itself, an option is
    followed by its value, and values are read as file names, encodings and numbers of 64 bits.  What is not given
    has its standard value. -/
structure ReadsArguments (read : List String → Except Response Invocation) : Prop where
  assemble : ∀ {source image word format memoryBytes}, IsFileName source → IsFileName image → Names word format →
    (∀ number ∈ memoryBytes, number < numberBound) →
    read (assembleWords source image word memoryBytes) =
      .ok ⟨.assemble source (some image) format memoryBytes false, 0⟩
  runImage : ∀ {image word format maxSteps shown dump}, IsFileName image → Names word format →
    (∀ number ∈ maxSteps, number < numberBound) → Option.Rel Names shown dump →
    read (runImageWords image word maxSteps shown) = .ok ⟨.run image format false none maxSteps dump, 0⟩
  runSource : ∀ {source memoryBytes maxSteps shown dump}, IsFileName source →
    (∀ number ∈ memoryBytes, number < numberBound) → (∀ number ∈ maxSteps, number < numberBound) →
    Option.Rel Names shown dump →
    read (runSourceWords source memoryBytes maxSteps shown) =
      .ok ⟨.run source .standard true memoryBytes maxSteps dump, 0⟩

section Words

variable {kinds : List OptionKind} {word name value : String} {rest : List String}

theorem readWord_of_isValue (value : isValue word = true) : readWord kinds word = some ([.plain word], none) := by
  rw [isValue, Bool.or_eq_true, decide_eq_true_eq, decide_eq_true_eq] at value
  unfold readWord
  rcases value with plain | rfl
  · split
    next dashes => simp [dashes] at plain
    next dash => simp [dash] at plain
    next => rfl
  · rfl

theorem ne_dashes_of_isValue (value : isValue word = true) : word ≠ "--" := by
  rintro rfl
  revert value
  decide

theorem readWords_plain (value : isValue word = true) :
    readWords kinds none (word :: rest) = (readWords kinds none rest).map (.plain word :: ·) := by
  rw [readWords]
  simp only [if_neg (ne_dashes_of_isValue value), readWord_of_isValue value, bind, Option.bind]
  cases readWords kinds none rest <;> rfl

theorem readWords_flag (option : readWord kinds word = some ([.flag name], none)) (long : word ≠ "--") :
    readWords kinds none (word :: rest) = (readWords kinds none rest).map (.flag name :: ·) := by
  rw [readWords]
  simp only [if_neg long, option, bind, Option.bind]
  cases readWords kinds none rest <;> rfl

theorem readWords_setting (option : readWord kinds word = some ([], some name)) (long : word ≠ "--")
    (given : isValue value = true) :
    readWords kinds none (word :: value :: rest) = (readWords kinds none rest).map (.setting name value :: ·) := by
  rw [readWords]
  simp only [if_neg long, option, readWords, if_pos given, bind, Option.bind]
  cases readWords kinds none rest <;> rfl

end Words

section Values

variable {word : String} {encoding : Encoding}

theorem names_name (encoding : Encoding) : Names encoding.name encoding := by
  cases encoding with
  | base64Url => rfl
  | digits radix => cases radix <;> rfl

theorem names_names (encoding? : Option Encoding) : Option.Rel Names (encoding?.map Encoding.name) encoding? := by
  cases encoding? with
  | none => exact .none
  | some encoding => exact .some (names_name encoding)

theorem Names.readEncoding_eq (named : Names word encoding) : readEncoding word = some encoding := by
  rw [readEncoding, named]
  rfl

/-- In lower case an encoding has one of a few names. -/
theorem Names.mem (named : Names word encoding) : String.ofList (word.toList.map Char.toLower) ∈
    ["base64", "base64url", "2", "bin", "binary", "10", "dec", "decimal", "16", "hex", "hexadecimal"] := by
  unfold Names Encoding.ofName? Radix.ofName? at named
  split at named
  next same => simp [same]
  next same => simp [same]
  split at named
  case h_10 => cases named
  all_goals simp [*]

/-- No name of an encoding starts like an option. -/
theorem Names.isValue_eq (named : Names word encoding) : isValue word = true := by
  rw [isValue, Bool.or_eq_true, decide_eq_true_eq]
  refine .inl fun dash => ?_
  have head := List.mem_map_of_mem (f := fun text : String => text.toList.head?) named.mem
  rw [String.toList_ofList, List.head?_map, dash] at head
  revert head
  decide +kernel

variable {number : Nat}

theorem toList_toString (number : Nat) :
    (toString number).toList ≠ [] ∧ (∀ c ∈ (toString number).toList, c.isDigit = true) ∧
      Radix.decimal.valueOf (toString number).toList = number := by
  have digits : ∀ c ∈ Nat.toDigits 10 number, c.isDigit = true := fun _ member =>
    Nat.isDigit_of_mem_toDigits (by decide) (by decide) member
  have text : (toString number).toList = Nat.toDigits 10 number := Nat.toList_repr
  rw [text, Assembly.Syntax.valueOf_eq_number digits]
  exact ⟨Nat.toDigits_ne_nil, digits, Nat.ofDigitChars_ten_toDigits⟩

theorem readNumber_toString (small : number < numberBound) : readNumber (toString number) = some number := by
  obtain ⟨nonempty, digits, value⟩ := toList_toString number
  rw [← value] at small
  unfold readNumber
  dsimp only
  split
  next rest sign =>
    rw [sign] at digits
    cases digits '+' List.mem_cons_self
  next =>
    rw [if_pos ⟨nonempty, List.all_eq_true.2 digits, small⟩, value]

theorem isValue_toString (number : Nat) : isValue (toString number) = true := by
  obtain ⟨-, digits, -⟩ := toList_toString number
  rw [isValue, Bool.or_eq_true, decide_eq_true_eq]
  refine .inl fun dash => ?_
  cases digits '-' (List.mem_of_mem_head? dash)

end Values

def settings (name : String) : Option String → List Argument
  | none => []
  | some value => [.setting name value]

section Arguments

open Argument

variable {name other word : String} {value : Option String} {arguments behind : List Argument}

@[simp] theorem plains_nil : plains [] = [] := rfl

@[simp] theorem plains_plain : plains (.plain word :: arguments) = word :: plains arguments := rfl

@[simp] theorem plains_flag : plains (.flag other :: arguments) = plains arguments := rfl

@[simp] theorem plains_setting : plains (.setting other word :: arguments) = plains arguments := rfl

@[simp] theorem plains_append : plains (arguments ++ behind) = plains arguments ++ plains behind :=
  List.filterMap_append

@[simp] theorem plains_settings : plains (settings other value) = [] := by
  cases value <;> rfl

@[simp] theorem values_nil : values name [] = [] := rfl

@[simp] theorem values_plain : values name (.plain word :: arguments) = values name arguments := rfl

@[simp] theorem values_flag : values name (.flag other :: arguments) = values name arguments := rfl

@[simp] theorem values_setting : values name (.setting other word :: arguments) =
    if other = name then word :: values name arguments else values name arguments := by
  by_cases same : other = name <;> simp [values, same]

@[simp] theorem values_append : values name (arguments ++ behind) = values name arguments ++ values name behind :=
  List.filterMap_append

@[simp] theorem values_settings :
    values name (settings other value) = if other = name then value.toList else [] := by
  cases value with
  | none => simp [settings]
  | some value => simp [settings]

@[simp] theorem count_nil : Argument.count name [] = 0 := rfl

@[simp] theorem count_plain : Argument.count name (.plain word :: arguments) = Argument.count name arguments := by
  have different : (Argument.plain word == flag name) = false := rfl
  simp [Argument.count, List.count_cons, different]

@[simp] theorem count_flag : Argument.count name (.flag other :: arguments) =
    Argument.count name arguments + if other = name then 1 else 0 := by
  have same : (flag other == flag name) = (other == name) := rfl
  simp [Argument.count, List.count_cons, same]

@[simp] theorem count_setting :
    Argument.count name (.setting other word :: arguments) = Argument.count name arguments := by
  have different : (setting other word == flag name) = false := rfl
  simp [Argument.count, List.count_cons, different]

@[simp] theorem count_append :
    Argument.count name (arguments ++ behind) = Argument.count name arguments + Argument.count name behind :=
  List.count_append

@[simp] theorem count_settings : Argument.count name (settings other value) = 0 := by
  cases value <;> simp [settings]

theorem readOnlyFile_of_plains {file : String} (only : plains arguments = [file]) (nonempty : file ≠ "") :
    readOnlyFile arguments = some file := by
  simp only [readOnlyFile, only, readFile, if_neg nonempty]

/-- An option that is given once or not at all is read as its value is. -/
theorem value?_of_values {α : Type} {read : String → Option α} {word? : Option String} {given : Option α}
    (only : values name arguments = word?.toList)
    (reads : Option.Rel (fun word value => read word = some value) word? given) :
    value? name read arguments = some given := by
  cases reads with
  | none => simp only [value?, only, Option.toList_none]
  | some reads => simp only [value?, only, Option.toList_some, reads, Option.map_some]

theorem once?_of_count (never : Argument.count name arguments = 0) : once? name arguments = some false := by
  simp only [once?, never]

end Arguments

section Commands

variable {kinds : List OptionKind} {option name : String}

theorem readWords_settingWords (known : readWord kinds option = some ([], some name)) (long : option ≠ "--")
    {value : Option String} (given : ∀ word ∈ value, isValue word = true) (rest : List String) :
    readWords kinds none (settingWords option value ++ rest) =
      (readWords kinds none rest).map (settings name value ++ ·) := by
  cases value with
  | none =>
      change readWords kinds none rest = _
      cases readWords kinds none rest <;> rfl
  | some value => exact readWords_setting known long (given value rfl)

theorem readWords_lastSettingWords (known : readWord kinds option = some ([], some name)) (long : option ≠ "--")
    {value : Option String} (given : ∀ word ∈ value, isValue word = true) :
    readWords kinds none (settingWords option value) = some (settings name value) := by
  simpa [readWords] using readWords_settingWords known long given []

theorem isValue_numbers (number? : Option Nat) : ∀ word ∈ number?.map toString, isValue word = true := by
  intro word member
  obtain ⟨number, -, rfl⟩ := Option.mem_map.1 member
  exact isValue_toString number

theorem readNumber_numbers {number? : Option Nat} (small : ∀ number ∈ number?, number < numberBound) :
    Option.Rel (fun word number => readNumber word = some number) (number?.map toString) number? := by
  cases number? with
  | none => exact .none
  | some number => exact .some (readNumber_toString (small number rfl))

theorem isValue_of_rel {shown : Option String} {dump : Option Encoding} (named : Option.Rel Names shown dump) :
    ∀ word ∈ shown, isValue word = true := by
  cases named with
  | none => simp
  | some named => simpa using named.isValue_eq

theorem readEncoding_of_rel {shown : Option String} {dump : Option Encoding} (named : Option.Rel Names shown dump) :
    Option.Rel (fun word encoding => readEncoding word = some encoding) shown dump := by
  cases named with
  | none => exact .none
  | some named => exact .some named.readEncoding_eq

/-- A command that has the name of a file behind its own is no question how it is used. -/
theorem asksForHelp_of_isValue {word : String} {rest : List String} (plain : name ≠ "help")
    (value : isValue word = true) : asksForHelp (name :: word :: rest) = false := by
  have other : word ∉ ["--help", "-h"] := by
    intro member
    simp only [List.mem_cons, List.not_mem_nil, or_false] at member
    rcases member with rfl | rfl <;> revert value <;> decide
  unfold asksForHelp
  split
  next same => exact absurd (List.cons.inj same).1 plain
  next same =>
    obtain ⟨rfl, -⟩ := List.cons.inj (List.cons.inj same).2
    rw [decide_eq_false other, Bool.and_false]
  next => rfl

theorem readArguments_of_request {words : List String} {invocation : Invocation}
    (request : readRequest words = some (.command invocation)) : readArguments words = .ok invocation := by
  rw [readArguments, request]

theorem readArguments_assemble {file : String} {words : List String} {arguments : List Argument} {command : Command}
    (named : IsFileName file) (read : readWords assembleOptions none (file :: words) = some arguments)
    (known : readAssemble arguments = some command) (quiet : Argument.count verbose.name arguments = 0) :
    readArguments ("assemble" :: file :: words) = .ok ⟨command, 0⟩ := by
  have plain := @asksForHelp_of_isValue "assemble" file words (by decide) named.value
  apply readArguments_of_request
  simp [readRequest, readFront, readCommand, read, known, quiet, plain]

theorem readArguments_run {file : String} {words : List String} {arguments : List Argument} {command : Command}
    (named : IsFileName file) (read : readWords runOptions none (file :: words) = some arguments)
    (known : readRun arguments = some command) (quiet : Argument.count verbose.name arguments = 0) :
    readArguments ("run" :: file :: words) = .ok ⟨command, 0⟩ := by
  have plain := @asksForHelp_of_isValue "run" file words (by decide) named.value
  apply readArguments_of_request
  simp [readRequest, readFront, readCommand, read, known, quiet, plain]

variable {source image word : String} {format : Encoding} {memoryBytes maxSteps : Option Nat} {shown : Option String}
  {dump : Option Encoding}

/-- A program is assembled, and its image is written to a file. -/
theorem readArguments_assembleWords (sourceName : IsFileName source) (imageName : IsFileName image)
    (formatName : Names word format) (smallMemory : ∀ number ∈ memoryBytes, number < numberBound) :
    readArguments (assembleWords source image word memoryBytes) =
      .ok ⟨.assemble source (some image) format memoryBytes false, 0⟩ := by
  let arguments := .plain source :: .setting "output" image :: .setting "format" word ::
    settings "memory-bytes" (memoryBytes.map toString)
  have words : readWords assembleOptions none (assembleWords source image word memoryBytes).tail = some arguments := by
    rw [assembleWords, List.tail_cons, readWords_plain sourceName.value,
      readWords_setting (show _ = some ([], some "output") by decide +kernel) (by decide) imageName.value,
      readWords_setting (show _ = some ([], some "format") by decide +kernel) (by decide) formatName.isValue_eq,
      readWords_lastSettingWords (show _ = some ([], some "memory-bytes") by decide +kernel) (by decide)
        (isValue_numbers memoryBytes)]
    rfl
  have file : readOnlyFile arguments = some source := readOnlyFile_of_plains (by simp [arguments]) sourceName.nonempty
  have output : Argument.value? "output" readFile arguments = some (some image) :=
    @value?_of_values _ _ _ _ (some image) _ (by simp [arguments]) (.some (if_neg imageName.nonempty))
  have encoding : Argument.value? "format" readEncoding arguments = some (some format) :=
    @value?_of_values _ _ _ _ (some word) _ (by simp [arguments]) (.some formatName.readEncoding_eq)
  have size : Argument.value? "memory-bytes" readNumber arguments = some memoryBytes :=
    value?_of_values (by simp [arguments]) (readNumber_numbers smallMemory)
  have listing : Argument.once? "listing" arguments = some false := once?_of_count (by simp [arguments])
  have command : readAssemble arguments = some (.assemble source (some image) format memoryBytes false) := by
    simp [readAssemble, file, output, encoding, size, listing]
  exact readArguments_assemble sourceName words command (by simp [arguments])

/-- A memory image is run. -/
theorem readArguments_runImageWords (imageName : IsFileName image) (formatName : Names word format)
    (smallBudget : ∀ number ∈ maxSteps, number < numberBound) (dumpName : Option.Rel Names shown dump) :
    readArguments (runImageWords image word maxSteps shown) =
      .ok ⟨.run image format false none maxSteps dump, 0⟩ := by
  let arguments := .plain image :: .setting "format" word ::
    (settings "max-steps" (maxSteps.map toString) ++ settings "dump" shown)
  have words : readWords runOptions none (runImageWords image word maxSteps shown).tail = some arguments := by
    rw [runImageWords, List.tail_cons, readWords_plain imageName.value,
      readWords_setting (show _ = some ([], some "format") by decide +kernel) (by decide) formatName.isValue_eq,
      readWords_settingWords (show _ = some ([], some "max-steps") by decide +kernel) (by decide)
        (isValue_numbers maxSteps),
      readWords_lastSettingWords (show _ = some ([], some "dump") by decide +kernel) (by decide)
        (isValue_of_rel dumpName)]
    rfl
  have file : readOnlyFile arguments = some image := readOnlyFile_of_plains (by simp [arguments]) imageName.nonempty
  have encoding : Argument.value? "format" readEncoding arguments = some (some format) :=
    @value?_of_values _ _ _ _ (some word) _ (by simp [arguments]) (.some formatName.readEncoding_eq)
  have source : Argument.once? "source" arguments = some false := once?_of_count (by simp [arguments])
  have size : Argument.value? "memory-bytes" readNumber arguments = some none :=
    @value?_of_values _ _ _ _ none _ (by simp [arguments]) .none
  have budget : Argument.value? "max-steps" readNumber arguments = some maxSteps :=
    value?_of_values (by simp [arguments]) (readNumber_numbers smallBudget)
  have shows : Argument.value? "dump" readEncoding arguments = some dump :=
    @value?_of_values _ _ _ _ shown _ (by simp [arguments]) (readEncoding_of_rel dumpName)
  have command : readRun arguments = some (.run image format false none maxSteps dump) := by
    simp [readRun, file, encoding, source, size, budget, shows]
  exact readArguments_run imageName words command (by simp [arguments])

/-- A program is run without an image in between. -/
theorem readArguments_runSourceWords (sourceName : IsFileName source)
    (smallMemory : ∀ number ∈ memoryBytes, number < numberBound)
    (smallBudget : ∀ number ∈ maxSteps, number < numberBound) (dumpName : Option.Rel Names shown dump) :
    readArguments (runSourceWords source memoryBytes maxSteps shown) =
      .ok ⟨.run source .standard true memoryBytes maxSteps dump, 0⟩ := by
  let arguments := .plain source :: .flag "source" :: (settings "memory-bytes" (memoryBytes.map toString) ++
    (settings "max-steps" (maxSteps.map toString) ++ settings "dump" shown))
  have words : readWords runOptions none (runSourceWords source memoryBytes maxSteps shown).tail = some arguments := by
    rw [runSourceWords, List.tail_cons, readWords_plain sourceName.value,
      readWords_flag (show _ = some ([Argument.flag "source"], none) by decide +kernel) (by decide),
      readWords_settingWords (show _ = some ([], some "memory-bytes") by decide +kernel) (by decide)
        (isValue_numbers memoryBytes),
      readWords_settingWords (show _ = some ([], some "max-steps") by decide +kernel) (by decide)
        (isValue_numbers maxSteps),
      readWords_lastSettingWords (show _ = some ([], some "dump") by decide +kernel) (by decide)
        (isValue_of_rel dumpName)]
    rfl
  have file : readOnlyFile arguments = some source := readOnlyFile_of_plains (by simp [arguments]) sourceName.nonempty
  have encoding : Argument.value? "format" readEncoding arguments = some none :=
    @value?_of_values _ _ _ _ none _ (by simp [arguments]) .none
  have fromSource : Argument.once? "source" arguments = some true := by simp [arguments, Argument.once?]
  have size : Argument.value? "memory-bytes" readNumber arguments = some memoryBytes :=
    value?_of_values (by simp [arguments]) (readNumber_numbers smallMemory)
  have budget : Argument.value? "max-steps" readNumber arguments = some maxSteps :=
    value?_of_values (by simp [arguments]) (readNumber_numbers smallBudget)
  have shows : Argument.value? "dump" readEncoding arguments = some dump :=
    @value?_of_values _ _ _ _ shown _ (by simp [arguments]) (readEncoding_of_rel dumpName)
  have command : readRun arguments = some (.run source .standard true memoryBytes maxSteps dump) := by
    simp [readRun, file, encoding, fromSource, size, budget, shows]
  exact readArguments_run sourceName words command (by simp [arguments, verbose])

theorem readsArguments_standard : ReadsArguments standard.readArguments where
  assemble := readArguments_assembleWords
  runImage := readArguments_runImageWords
  runSource := readArguments_runSourceWords

end Commands

end WordMachine.Shell
