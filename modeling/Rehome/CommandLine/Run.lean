import Rehome.Build.Run
import Rehome.CommandLine.Order
import Rehome.Settings.Load

/-! Carrying out what a command line asks for. -/

namespace Rehome.CommandLine

/-- How a command line ends. -/
inductive Outcome where
  | stopped (stop : Stop)
  | printed (t : Text)
  /-- A fault that is reported. -/
  | failed (fault : Fault)
  | served (address : Address)
  deriving DecidableEq

namespace Prepare

def packagesOf (args : List (Option Text)) : Except Fault (List Package) :=
  args.mapM fun arg =>
    match arg with
    | some arg => (Package.ofArgument arg).mapError .badArgument
    | none => .error .valuelessPackage

/-- The settings of a run. Packages among the options replace those of the settings file, which is
then only read if it is named, and a destination among the options comes before all others. -/
def settings (env : Environment) (o : Prepare) : Action Settings := do
  let s ←
    if o.packages = [] then Settings.load env (some o.settingsFile)
    else do
      let packages ← liftExcept (packagesOf o.packages)
      if o.settingsFile = [] then
        pure (Settings.placeDestination env env.cwd { packages })
      else
        let s ← Settings.load env (some o.settingsFile)
        pure { s with packages }
  return if o.destination = [] then s else { s with destination := o.destination }

def report (b : Build) : Text :=
  Text.ofNat b.entries.length ++ " declaration files written, manifest at ".toList ++
    b.manifestPath ++ ['\n']

def run (env : Environment) (o : Prepare) : Action Text := do
  let s ← o.settings env
  return report (← Build.run env.cwd s)

end Prepare

namespace Single

def place (o : Single) : Text :=
  (if o.relPath = [] then Path.fileName o.file else o.relPath).slashed

/-- The path that references are resolved against. -/
def current (o : Single) : Text :=
  if o.currentPath ≠ [] then o.currentPath
  else if o.home = [] then Declaration.stem o.place
  else Declaration.currentPathOf o.home o.place

/-- The name that the module is declared under. -/
def module (o : Single) : Except Fault Text :=
  if o.modulePath ≠ [] then .ok o.modulePath
  else if o.home = [] ∨ o.currentPath ≠ [] then .ok (Declaration.stripIndex o.current)
  else
    match o.rootFile with
    | some root => .ok (Declaration.modulePathOf o.home o.place root)
    | none => .error .valuelessRootFile

/-- What is printed for the text of the file. -/
def output (o : Single) (t : Text) : Except Fault Text :=
  o.module.map fun module => Statement.rehome o.current module t.unixLines ++ ['\n']

def run (o : Single) : Action Text := do
  liftExcept (o.output (← Action.read o.file))

end Single

/-- Faults that somebody answers for are reported; the others end the run. -/
def reporting (t : Action Text) : Action Outcome :=
  tryCatch (Outcome.printed <$> t) fun f =>
    if f.kind = .internal then throw f else pure (.failed f)

def Order.run (env : Environment) : Order → Action Outcome
  | .prepare o => reporting (o.run env)
  | .single o => reporting o.run
  | .serve a => pure (.served a)

def run (env : Environment) (ws : List Text) : Action Outcome :=
  match parse ws with
  | .error stop => pure (.stopped stop)
  | .ok (_, order) => order.run env

/-- Whether a run shows a line of its log. -/
def shows (ws : List Text) (line : LogLine) : Bool :=
  match parse ws with
  | .error _ => false
  | .ok (verbose, _) => verbose || line.level = .info

end Rehome.CommandLine
