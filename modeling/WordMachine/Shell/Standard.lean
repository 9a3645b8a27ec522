import WordMachine.Shell.CommandLine
import WordMachine.Shell.Files
import WordMachine.Shell.Host

/-! # A system to work on

Libraries and files that work like those of a usual system, as far as the commands make use of them.
-/

namespace WordMachine.Shell

/-- The number with which a command line ends that is not in order. -/
def usageExitCode : Nat := 2

def usage : String := "usage: assemble|run|dump FILE [OPTIONS]\n"

def versionLine : String := "minicomp-cli 0.0.0\n"

def readArguments (words : List String) : Except Response Invocation :=
  match readRequest words with
  | none => .error ⟨usageExitCode, "", usage⟩
  | some .version => .error ⟨0, versionLine, ""⟩
  | some .help => .error ⟨0, usage, ""⟩
  | some (.command invocation) => .ok invocation

/-- The causes of a failure as lines of text; they are counted if there are several. -/
def causeLines (causes : List String) : List String :=
  match causes with
  | [cause] => [s!"    {cause}"]
  | causes => causes.mapIdx fun index cause => s!"    {index}: {cause}"

def describe (failure : Failure) : String :=
  failure.context ++ "\n\nCaused by:\n" ++ "\n".intercalate (causeLines failure.causes)

def logLine (event : Event) : String :=
  let level := String.ofList (event.level.name.toList.rightpad 5 ' ')
  s!"{level} [{event.source}] {event.message}\n"

def standard : Libraries where
  codec := Base64Url.codec
  readArguments := readArguments
  describe := describe
  logLine := logLine
  panicNotice message := s!"panicked: {message}\n"

/-- Writes a text where its name leads to. -/
def FileSystem.save (system : FileSystem) (name text : String) : Saved FileSystem :=
  match system.target name with
  | .ok (.file place) => ⟨system.put place text, "", "", none⟩
  | .ok (.device .null) => ⟨system, "", "", none⟩
  | .ok (.device .full) => ⟨system, "", "", some FileError.noSpace.message⟩
  | .ok (.device .output) => ⟨system, text, "", none⟩
  | .ok (.device .errorOutput) => ⟨system, "", text, none⟩
  | .error error => ⟨system, "", "", some error.message⟩

def FileSystem.access : FileAccess FileSystem where
  read system name := (system.read name).mapError FileError.message
  write := FileSystem.save

end WordMachine.Shell
