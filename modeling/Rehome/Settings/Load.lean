import Rehome.Program
import Rehome.Settings.Basic
import Rehome.Toml.Document

/-! Settings from files. What a file names by a relative path is looked for from the directory of
the file, and the environment may name another destination. -/

namespace Rehome

/-- What a run finds around it. -/
structure Environment where
  /-- The working directory. -/
  cwd : Text
  /-- A destination that comes before the one in the settings, even if it is empty. -/
  destination : Option Text := none
  deriving DecidableEq

namespace Settings

def defaultFile : Text := "dts-relocate.toml".toList

/-- The destination of the environment, or else that of the settings, seen from `base`. -/
def placeDestination (env : Environment) (base : Text) (s : Settings) : Settings :=
  { s with destination := Path.absolute base (env.destination.getD s.destination) }

/-- Sources seen from `base`. -/
def placeSources (base : Text) (s : Settings) : Settings :=
  { s with packages := s.packages.map fun p =>
      { p with sourceDir := Path.absolute base p.sourceDir } }

/-- The settings that the text of the file at `path` spells. -/
def ofText (path t : Text) : Except Fault Settings :=
  match Toml.parse t with
  | .error .malformed => .error (.badSyntax path)
  | .error (.hugeNumeral n) => .error (.hugeNumeral n)
  | .ok v =>
    match ofValue v with
    | .error is => .error (.badSettings path is)
    | .ok s => .ok s

/-- The file that settings are read from. No name and the empty name stand for the default. -/
def fileOf (env : Environment) (name : Option Text) : Text :=
  match name with
  | none | some [] => Path.absolute env.cwd defaultFile
  | some name => Path.absolute env.cwd name

def load (env : Environment) (name : Option Text) : Action Settings := do
  let path := fileOf env name
  let t ← tryCatch (Action.read path) fun f =>
    match f with
    | .system .notFound _ => throw (.noSettings path)
    | f => throw f
  let s ← liftExcept (ofText path t)
  let base := Path.parent path
  return placeDestination env base (placeSources base s)

end Settings

end Rehome
