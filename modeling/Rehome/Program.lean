import Rehome.FileSystem.RealPath
import Rehome.Fault

/-! Programs that work on a file system, as trees of single calls. Between two calls of a program
others may come, so a run of several programs is any order of their calls. -/

namespace Rehome

inductive Level where
  | debug
  | info
  deriving DecidableEq

structure LogLine where
  level : Level
  text : Text
  deriving DecidableEq

def Level.name : Level → Text
  | debug => "DEBUG".toList
  | info => "INFO".toList

/-- A line as it is shown, after its level and the name of the log. -/
def LogLine.render (l : LogLine) : Text := l.level.name ++ " relocator.build: ".toList ++ l.text

/-- The single steps that a program takes. -/
inductive Call where
  | isDirectory (path : Text)
  | exists (path : Text)
  | realPath (path : Text)
  /-- The text of a file. -/
  | read (path : Text)
  | makeDirectory (path : Text)
  /-- Opens a file for writing, which empties it, and tells where it is. -/
  | create (path : Text)
  /-- Fills the file that was opened at the location. -/
  | write (p : Location) (t : Text)
  /-- The names on the way to each file and each link to no directory inside a directory. Links to
  directories are not followed. -/
  | files (path : Text)
  /-- Removes a directory with all that it holds. -/
  | removeTree (path : Text)
  | log (line : LogLine)
  /-- The path of the working directory, which may have been removed. -/
  | workingDirectory

/-- What a call answers. -/
abbrev Call.Reply : Call → Type
  | isDirectory _ | .exists _ => Bool
  | realPath _ | read _ | workingDirectory => Except Fault Text
  | makeDirectory _ | removeTree _ => Except Fault Unit
  | create _ => Except Fault Location
  | files _ => List (List Text)
  | write .. | log _ => Unit

inductive Program (α : Type) where
  | done (a : α)
  | call (c : Call) (next : c.Reply → Program α)

namespace Program

variable {α β : Type}

def bind : Program α → (α → Program β) → Program β
  | done a, f => f a
  | call c next, f => call c fun r => (next r).bind f

instance : Monad Program where
  pure := done
  bind := bind

def ask (c : Call) : Program c.Reply := call c done

end Program

/-- A program that may end with a fault. -/
abbrev Action (α : Type) := ExceptT Fault Program α

namespace Action

def isDirectory (path : Text) : Action Bool := ExceptT.lift (Program.ask (.isDirectory path))

def «exists» (path : Text) : Action Bool := ExceptT.lift (Program.ask (.exists path))

def realPath (path : Text) : Action Text := ExceptT.mk (Program.ask (.realPath path))

def read (path : Text) : Action Text := ExceptT.mk (Program.ask (.read path))

def makeDirectory (path : Text) : Action Unit := ExceptT.mk (Program.ask (.makeDirectory path))

def create (path : Text) : Action Location := ExceptT.mk (Program.ask (.create path))

def write (p : Location) (t : Text) : Action Unit := ExceptT.lift (Program.ask (.write p t))

def files (path : Text) : Action (List (List Text)) := ExceptT.lift (Program.ask (.files path))

def removeTree (path : Text) : Action Unit := ExceptT.mk (Program.ask (.removeTree path))

def workingDirectory : Action Text := ExceptT.mk (Program.ask .workingDirectory)

def log (level : Level) (t : Text) : Action Unit := ExceptT.lift (Program.ask (.log ⟨level, t⟩))

end Action

end Rehome
