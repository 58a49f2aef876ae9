import Rehome.Build.Run

/-! The service, which answers requests to rehome one text or to build packages. The strings of a request are texts,
so requests with half a surrogate pair in a string are left out. -/

namespace Rehome.Service

/-- A request to rehome the text of one file. Its place is given by a current path, or by a home and
a path below it. -/
structure Single where
  text : Text
  currentPath : Option Text := none
  modulePath : Option Text := none
  home : Option Text := none
  relPath : Option Text := none
  rootFile : Text := "index.d.ts".toList
  deriving DecidableEq

/-- A request to build packages. -/
structure Prepare where
  destination : Text
  packages : List Package
  manifestName : Text := "dts-list.ts".toList
  deriving DecidableEq

/-- A text put in its place. -/
structure Placed where
  modulePath : Text
  text : Text
  deriving DecidableEq

inductive Answer (α : Type) where
  | done (a : α)
  /-- The request was understood, but cannot be carried out. -/
  | refused (detail : Text)
  | invalid (issues : List Issue)
  deriving DecidableEq

namespace Single

def ofValue : Value → Checked Single :=
  Value.asRecord "RewriteRequest" fun fs =>
    ((Value.required fs "text" Value.asText).both
      ((Value.optional fs "current_path" none Value.asOptionalText).both
        ((Value.optional fs "module_path" none Value.asOptionalText).both
          ((Value.optional fs "namespace" none Value.asOptionalText).both
            ((Value.optional fs "rel_path" none Value.asOptionalText).both
              (Value.optional fs "root_file" "index.d.ts".toList Value.asNonemptyText)))))).map
      fun (text, currentPath, modulePath, home, relPath, rootFile) =>
        { text, currentPath, modulePath, home, relPath, rootFile }

/-- An empty text counts as none. -/
def given? (t : Option Text) : Option Text := t.filter (· ≠ [])

/-- The home and the path below it, if both are given. -/
def location? (r : Single) : Option (Text × Text) :=
  match given? r.home, given? r.relPath with
  | some home, some rel => some (home, rel)
  | _, _ => none

/-- The path that references are resolved against. -/
def current? (r : Single) : Option Text :=
  (given? r.currentPath).or (r.location?.map fun (home, rel) => Declaration.currentPathOf home rel)

/-- The name that the module is declared under. -/
def module (r : Single) (current : Text) : Text :=
  match given? r.modulePath, r.location? with
  | some name, _ => name
  | none, some (home, rel) => Declaration.modulePathOf home rel r.rootFile
  | none, none => Declaration.stripIndex current

def answer (r : Single) : Answer Placed :=
  match r.current? with
  | some current =>
    .done { modulePath := r.module current,
            text := Statement.rehome current (r.module current) r.text }
  | none => .refused "Either current_path or namespace and rel_path is required".toList

end Single

namespace Prepare

def ofValue : Value → Checked Prepare :=
  Value.asRecord "PrepareRequest" fun fs =>
    ((Value.required fs "destination" Value.asText).both
      ((Value.required fs "packages" (Value.asList Package.ofValue)).both
        (Value.optional fs "manifest_name" "dts-list.ts".toList Value.asText))).map
      fun (destination, packages, manifestName) => { destination, packages, manifestName }

def settings (r : Prepare) : Settings :=
  { destination := r.destination, manifestName := r.manifestName, packages := r.packages }

/-- The first package whose source is no directory. -/
def missingSource : List Package → Action (Option Package)
  | [] => return none
  | p :: ps => do if ← Action.isDirectory p.sourceDir then missingSource ps else return some p

def build (cwd : Text) (r : Prepare) : Action (Answer Build) :=
  tryCatch (Answer.done <$> Build.run cwd r.settings) fun f =>
    match f.kind with
    | .system | .build => pure (.refused f.message)
    | .settings | .internal => throw f

def answer (cwd : Text) (r : Prepare) : Action (Answer Build) := do
  match ← missingSource r.packages with
  | some p => return .refused ("Invalid src_dir: ".toList ++ p.sourceDir)
  | none => build cwd r

end Prepare

/-- A request wants fields of its body, of whatever kind they are. -/
def ofBody {α : Type} (check : Value → Checked α) (body : Value) : Checked α :=
  let checked : Checked α :=
    match body with
    | .null => .error [⟨[], .missing⟩]
    | body => check body
  Checked.within (.field "body".toList) (checked.mapError (·.map fun i =>
    match i.cause with
    | .notRecord _ => { i with cause := .noFields }
    | _ => i))

def answerSingle (body : Value) : Answer Placed :=
  match ofBody Single.ofValue body with
  | .error is => .invalid is
  | .ok r => r.answer

def answerPrepare (cwd : Text) (body : Value) : Action (Answer Build) :=
  match ofBody Prepare.ofValue body with
  | .error is => pure (.invalid is)
  | .ok r => r.answer cwd

end Rehome.Service
