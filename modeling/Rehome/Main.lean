import Rehome.CommandLine.Run

/-! The command line at work on the files of the machine. -/

namespace Rehome.Live

def codeOf : IO.Error → UInt32
  | .alreadyExists _ code _ | .noFileOrDirectory _ code _ | .invalidArgument _ code _ => code
  | .inappropriateType _ code _ | .resourceExhausted _ code _ => code
  | .permissionDenied _ code _ => code
  | .unsatisfiedConstraints code _ | .otherError code _ => code
  | _ => 0

/-- The number of an error, of which some calls give the negative. -/
def numberOf (e : IO.Error) : Nat :=
  let code := codeOf e
  (if code < 0x80000000 then code else 0 - code).toNat

/-- The answer of the machine to a call on a path. Errors of other kinds are passed on. -/
def attempt {α : Type} (path : Text) (act : String → IO α) : IO (Except Fault α) :=
  if '\x00' ∈ path then return .error .nul
  else
    try .ok <$> act (String.ofList path)
    catch e =>
      match SystemError.all.find? (·.number = numberOf e) with
      | some s => return .error (.system s path)
      | none => throw e

def holds (path : Text) (test : String → IO Bool) : IO Bool :=
  if '\x00' ∈ path then return false
  else try test (String.ofList path) catch _ => return false

def isDirectory (path : Text) : IO Bool := holds path fun p => do (← IO.FS.realPath p).isDir

def isLink (path : Text) : IO Bool := do
  let entry : IO.FS.DirEntry :=
    { root := String.ofList (Path.join (Path.parent path) Path.here),
      fileName := String.ofList (Path.fileName path) }
  return (← entry.path.symlinkMetadata).type == .symlink

/-- The real path of a path, of which the end may be missing. -/
partial def realPath (path : Text) : IO Text := do
  try return (← IO.FS.realPath (String.ofList path)).toString.toList
  catch _ =>
    let up := Path.parent path
    if up = path then return path
    else return Path.normalize (Path.join (← realPath up) (Path.fileName path))

partial def files (dir : Text) : IO (List (List Text)) := do
  let mut found := []
  for entry in ← (← IO.FS.realPath (String.ofList dir)).readDir do
    let name := entry.fileName.toList
    match (← entry.path.symlinkMetadata).type with
    | .dir => found := found ++ (← files (Path.join dir name)).map (name :: ·)
    | .symlink => unless ← isDirectory (Path.join dir name) do found := found ++ [[name]]
    | _ => found := found ++ [[name]]
  return found

def removeTree (path : Text) : IO (Except Fault Unit) := do
  if ← isLink path then return .error .linkedDirectory
  else attempt path fun p => IO.FS.removeDirAll p

def read (path : Text) : IO (Except Fault Text) := do
  match ← attempt path fun p => IO.FS.readBinFile p with
  | .error f => return .error f
  | .ok b =>
    match String.fromUTF8? b with
    | some s => return .ok s.toList
    | none => return .error .notText

/-- The answer to one call, seen from the working directory `cwd`. -/
def answer (cwd : Text) (shows : LogLine → Bool) : (c : Call) → IO c.Reply
  | .isDirectory path => isDirectory path
  | .exists path => holds path fun p => do let _ ← IO.FS.realPath p; return true
  | .realPath path =>
    if '\x00' ∈ path then return .error .nul else .ok <$> realPath (Path.join cwd path)
  | .read path => read path
  | .makeDirectory path => attempt path fun p => IO.FS.createDir p
  | .create path => attempt path fun p => do
      let _ ← IO.FS.Handle.mk p .write
      return (FileSystem.pathNames (Path.join cwd path)).reverse
  | .write p t => IO.FS.writeFile (String.ofList p.path) (String.ofList t)
  | .files path => files path
  | .removeTree path => removeTree path
  | .workingDirectory =>
    try return .ok (← IO.currentDir).toString.toList catch _ => return .error .noWorkingDirectory
  | .log line => do if shows line then IO.eprintln (String.ofList line.render)

def perform {α : Type} (cwd : Text) (shows : LogLine → Bool) : Program α → IO α
  | .done a => return a
  | .call c next => do
    let r ← answer cwd shows c
    perform cwd shows (next r)

end Rehome.Live

open Rehome in
def main (args : List String) : IO UInt32 := do
  let words := args.map (·.toList)
  let env : Environment :=
    { cwd := (← IO.currentDir).toString.toList,
      destination := (← IO.getEnv "DTS_RELOCATE_DESTINATION").map (·.toList) }
  match ← Live.perform env.cwd (CommandLine.shows words) (CommandLine.run env words).run with
  | .ok (.stopped stop) =>
    let usage := "usage: dts-relocate [-h] [-v] COMMAND ..."
    if stop = .help then IO.println usage else IO.eprintln usage
    return stop.code.toUInt32
  | .ok (.printed t) =>
    IO.print (String.ofList t)
    return 0
  | .ok (.failed f) =>
    IO.eprintln (String.ofList ("error: ".toList ++ f.message))
    return 1
  | .ok (.served _) =>
    IO.eprintln "No server is built in."
    return 1
  | .error f =>
    IO.eprintln (String.ofList f.message)
    return 1
