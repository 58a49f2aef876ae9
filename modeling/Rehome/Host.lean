import Rehome.FileSystem.Change
import Rehome.Program

/-! Running programs alone on a host. A program may remove the directory that it works in. What it
names from there is then found only on a way that leads up and out of what was removed. -/

namespace Rehome

namespace FileSystem

/-- The location of a directory as it is known after a removal. Whatever is gone on the way there
goes by the empty name, under which nothing can ever stand. -/
def withoutGone (fs : FileSystem) : Location → Location
  | [] => []
  | n :: p => (if fs.lookup (n :: p) = some .directory then n else []) :: fs.withoutGone p

theorem withoutGone_eq_self {fs : FileSystem} {p : Location}
    (h : fs.lookup p = some .directory) : fs.withoutGone p = p := by
  induction p with
  | nil => rfl
  | cons n p ih => simp only [withoutGone, if_pos h, ih (lookup_parent h)]

end FileSystem

/-- A file system, the directory that a program works in, and what was logged. -/
structure Host where
  files : FileSystem
  cwd : Location
  log : List LogLine

namespace Host

/-- What a path may not hold is refused before the file system is asked. -/
def onPath {α : Type} (path : Text) (s : Host) (f : Except SystemError (α × FileSystem)) :
    Except Fault α × Host :=
  if '\x00' ∈ path then (.error .nul, s)
  else
    match f with
    | .ok (a, fs) => (.ok a, { s with files := fs })
    | .error e => (.error (.system e path), s)

def workingDirectory (s : Host) : Except Fault Text :=
  if s.files.lookup s.cwd = some .directory then .ok s.cwd.path else .error .noWorkingDirectory

/-- The real path of a path. Unless the path is absolute, there has to be a working directory. -/
def realPath (path : Text) (s : Host) : Except Fault Text :=
  match s.files.realPath? s.cwd path with
  | some q => if Path.isAbsolute path then .ok q else s.workingDirectory.map fun _ => q
  | none => .error .nul

/-- The host after a removal that left these files. -/
def afterRemoval (s : Host) (fs : FileSystem) : Host :=
  { s with files := fs, cwd := fs.withoutGone s.cwd }

def removeTree (path : Text) (s : Host) : Except Fault Unit × Host :=
  if '\x00' ∈ path then (.error .nul, s)
  else
    match s.files.removeTree s.cwd path with
    | (.ok (), fs) => (.ok (), s.afterRemoval fs)
    | (.error (.system e), fs) => (.error (.system e path), s.afterRemoval fs)
    | (.error .linked, fs) => (.error .linkedDirectory, s.afterRemoval fs)

def answer (s : Host) : (c : Call) → c.Reply × Host
  | .isDirectory path => (s.files.isDirectory s.cwd path, s)
  | .exists path => (s.files.exists s.cwd path, s)
  | .realPath path => (s.realPath path, s)
  | .read path =>
    match s.onPath path ((s.files.read s.cwd path).map (·, s.files)) with
    | (.ok (.text t), s) => (.ok t, s)
    | (.ok (.bytes _), s) => (.error .notText, s)
    | (.error e, s) => (.error e, s)
  | .makeDirectory path => s.onPath path ((s.files.makeDirectory s.cwd path).map ((), ·))
  | .create path => s.onPath path (s.files.create s.cwd path)
  | .write p t => ((), { s with files := s.files.putFile p (.text t) })
  | .files path => (s.files.files s.cwd path, s)
  | .removeTree path => s.removeTree path
  | .log line => ((), { s with log := s.log ++ [line] })
  | .workingDirectory => (s.workingDirectory, s)

/-- A program alone on the host, from its first call to its last. -/
def run {α : Type} : Program α → Host → α × Host
  | .done a, s => (a, s)
  | .call c next, s =>
    let (r, s) := s.answer c
    run (next r) s

end Host

end Rehome
