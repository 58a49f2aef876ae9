import Rehome.FileSystem.Walk

/-! What is done to a file system by path: making directories, filling files, removing trees. -/

namespace Rehome.FileSystem

def makeDirectory (fs : FileSystem) (cwd : Location) (path : Text) :
    Except SystemError FileSystem :=
  match fs.find cwd .nameEntry path with
  | .ok (.absent p n) => .ok (fs.put p n .directory)
  | .ok (.found _ _) => .error .exists
  | .error e => .error e

def putFile (fs : FileSystem) (p : Location) (c : Content) : FileSystem :=
  match p with
  | [] => fs
  | n :: p => fs.put p n (.file c)

/-- The location of an empty file at `path`, and the file system that has it. -/
def create (fs : FileSystem) (cwd : Location) (path : Text) :
    Except SystemError (Location × FileSystem) :=
  match fs.find cwd .openFile path with
  | .ok (.absent p n) => .ok (n :: p, fs.putFile (n :: p) (.text []))
  | .ok (.found _ .directory) => .error .isDirectory
  | .ok (.found p _) => .ok (p, fs.putFile p (.text []))
  | .error e => .error e

def read (fs : FileSystem) (cwd : Location) (path : Text) : Except SystemError Content :=
  match fs.find cwd .look path with
  | .ok (.found _ (.file c)) => .ok c
  | .ok (.found _ _) => .error .isDirectory
  | .ok (.absent _ _) => .error .notFound
  | .error e => .error e

/-- A link at `path`. Whatever else stands there stays. -/
def makeLink (fs : FileSystem) (cwd : Location) (path target : Text) : FileSystem :=
  match fs.find cwd .nameEntry path with
  | .ok (.absent p n) => fs.put p n (.link target)
  | _ => fs

/-- Why the empty directory at `path` cannot be removed, or where it stands. A path that ends in `.`
or `..` does not name an entry of a directory. -/
def nameDirectory (fs : FileSystem) (cwd : Location) (path : Text) :
    Except SystemError Location :=
  let names := pathNames path
  let last := names.getLast?
  if last = some Path.here ∨ last = some Path.up then
    match fs.walk .look maxLinks true (if Path.isAbsolute path then [] else cwd) names.dropLast with
    | .ok (.found _ _) => .error (if last = some Path.here then .invalid else .notEmpty)
    | .ok (.absent _ _) => .error .notFound
    | .error e => .error e
  else
    match fs.find cwd .nameEntry path with
    | .ok (.found p .directory) => .ok p
    | .ok (.found _ _) => .error .notDirectory
    | .ok (.absent _ _) => .error .notFound
    | .error e => .error e

/-- Why a tree was not removed. -/
inductive RemoveError where
  | system (e : SystemError)
  | linked
  deriving DecidableEq

/-- Removes the directory at `path`, first what it holds and then itself. A link is refused before
anything is removed; a path that cannot be removed in the end leaves an empty directory. -/
def removeTree (fs : FileSystem) (cwd : Location) (path : Text) :
    Except RemoveError Unit × FileSystem :=
  match fs.find cwd .lookAtLink path with
  | .ok (.found p .directory) =>
    let fs := fs.clear p
    match fs.nameDirectory cwd path with
    | .ok p => (.ok (), fs.prune p)
    | .error e => (.error (.system e), fs)
  | .ok (.found _ (.link _)) => (.error .linked, fs)
  | .ok (.found _ (.file _)) => (.error (.system .notDirectory), fs)
  | .ok (.absent _ _) => (.error (.system .notFound), fs)
  | .error e => (.error (.system e), fs)

/-- What stands inside the directory at `path` is listed if its own directory is near enough to be looked
into, and unless it is a link to a directory. -/
def isListed (fs : FileSystem) (cwd : Location) (path : Text) (names : List Text) (x : Node) : Bool :=
  (names.dropLast.foldl Path.join path).byteSize ≤ maxPathBytes &&
    match x with
    | .link _ => !fs.isDirectory cwd (names.foldl Path.join path)
    | _ => true

/-- The names on the way to each file inside the directory at `path`. A link counts as a file unless
it leads to a directory, and is never followed. -/
def files (fs : FileSystem) (cwd : Location) (path : Text) : List (List Text) :=
  match fs.find cwd .look path with
  | .ok (.found p .directory) =>
    ((fs.filesBelow p).filter fun (names, x) => fs.isListed cwd path names x).map (·.1)
  | _ => []

end Rehome.FileSystem
