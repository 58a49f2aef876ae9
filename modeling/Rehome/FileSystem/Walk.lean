import Rehome.FileSystem.Basic

/-! Walks along a path. Links on the way are followed; what happens at the last name depends on what
the walk is for. -/

namespace Rehome

/-- Why the system refuses a path. -/
inductive SystemError where
  | notFound
  | exists
  | notDirectory
  | isDirectory
  | invalid
  | nameTooLong
  | notEmpty
  | tooManyLinks
  deriving DecidableEq

namespace SystemError

def all : List SystemError :=
  [notFound, .exists, notDirectory, isDirectory, invalid, nameTooLong, notEmpty, tooManyLinks]

def number : SystemError → Nat
  | notFound => 2
  | .exists => 17
  | notDirectory => 20
  | isDirectory => 21
  | invalid => 22
  | nameTooLong => 36
  | notEmpty => 39
  | tooManyLinks => 40

def message : SystemError → Text
  | notFound => "No such file or directory".toList
  | .exists => "File exists".toList
  | notDirectory => "Not a directory".toList
  | isDirectory => "Is a directory".toList
  | invalid => "Invalid argument".toList
  | nameTooLong => "File name too long".toList
  | notEmpty => "Directory not empty".toList
  | tooManyLinks => "Too many levels of symbolic links".toList

/-- The number with what is said of it. -/
def report (e : SystemError) : Text :=
  "[Errno ".toList ++ Text.ofNat e.number ++ "] ".toList ++ e.message

end SystemError

/-- What a walk is for. -/
inductive Purpose where
  /-- To look at what is there, through links. -/
  | look
  /-- To look at what is there, or at the link itself. -/
  | lookAtLink
  /-- To open a file for writing, which is made where it is missing. -/
  | openFile
  /-- To name an entry of a directory, as making or removing a directory does. -/
  | nameEntry
  deriving DecidableEq

/-- Where a walk ends. -/
inductive Stop where
  | found (p : Location) (x : Node)
  /-- The directory `p` has no entry of that name. -/
  | absent (p : Location) (n : Text)
  deriving DecidableEq

namespace FileSystem

def maxLinks : Nat := 40

def maxNameBytes : Nat := 255

def maxPathBytes : Nat := 4095

/-- The names of a path, `.` and `..` among them. -/
def pathNames (p : Text) : List Text := (Path.segments p).filter (· ≠ [])

/-- How far a walk gets before a link has to be followed. -/
inductive Stride where
  | stop (result : Except SystemError Stop)
  /-- In the directory `dir` there is a link to `target`, and `rest` comes after it. -/
  | link (dir : Location) (target : Text) (rest : List Text)

/-- A stride from the directory `dir` along the names. `slash` says that a slash follows the last of
them, which asks for a directory. -/
def stride (fs : FileSystem) (purpose : Purpose) (slash : Bool) (dir : Location) :
    List Text → Stride
  | [] => .stop (.ok (.found dir .directory))
  | n :: rest =>
    if n = Path.here then fs.stride purpose slash dir rest
    else if n = Path.up then fs.stride purpose slash dir.tail rest
    else if rest = [] ∧ slash ∧ purpose = .openFile then .stop (.error .isDirectory)
    else if maxNameBytes < n.byteSize then .stop (.error .nameTooLong)
    else
      match fs.lookup (n :: dir) with
      | none =>
        .stop (if rest = [] ∧ fs.lookup dir = some .directory then .ok (.absent dir n)
          else .error .notFound)
      | some .directory => fs.stride purpose slash (n :: dir) rest
      | some (.file c) =>
        .stop (if rest = [] ∧ (!slash ∨ purpose = .nameEntry) then .ok (.found (n :: dir) (.file c))
          else .error .notDirectory)
      | some (.link target) =>
        if rest = [] ∧ (purpose = .nameEntry ∨ (purpose = .lookAtLink ∧ !slash)) then
          .stop (.ok (.found (n :: dir) (.link target)))
        else .link dir target rest

/-- Walks from the directory `dir` along the names and follows at most `links` links. A link at the
end that leads to a path with a slash behind it asks for a directory, too. -/
def walk (fs : FileSystem) (purpose : Purpose) (links : Nat) (slash : Bool) (dir : Location)
    (names : List Text) : Except SystemError Stop :=
  match fs.stride purpose slash dir names, links with
  | .stop r, _ => r
  | .link .., 0 => .error .tooManyLinks
  | .link dir target rest, links + 1 =>
    fs.walk purpose links (slash || (rest = [] && Path.endsInSlash target))
      (if Path.isAbsolute target then [] else dir) (pathNames target ++ rest)

/-- Where the path leads from the working directory `cwd`. -/
def find (fs : FileSystem) (cwd : Location) (purpose : Purpose) (path : Text) :
    Except SystemError Stop :=
  if path = [] then .error .notFound
  else if maxPathBytes < path.byteSize then .error .nameTooLong
  else
    fs.walk purpose maxLinks (Path.endsInSlash path) (if Path.isAbsolute path then [] else cwd)
      (pathNames path)

def isDirectory (fs : FileSystem) (cwd : Location) (path : Text) : Bool :=
  match fs.find cwd .look path with
  | .ok (.found _ .directory) => true
  | _ => false

def «exists» (fs : FileSystem) (cwd : Location) (path : Text) : Bool :=
  match fs.find cwd .look path with
  | .ok (.found _ _) => true
  | _ => false

end FileSystem

end Rehome
