import Rehome.Declaration
import Rehome.Text.Raw

/-! Packages, and the form `HOME=DIRECTORY[:ROOT]` in which an argument names one. -/

namespace Rehome

/-- A tree of declaration files and the home that it is moved to. -/
structure Package where
  home : Text
  sourceDir : Text
  /-- The file whose module goes by the bare home. -/
  rootFile : Text := "index.d.ts".toList
  deriving DecidableEq

namespace Package

namespace ArgumentError

inductive Cause where
  | malformed
  | emptyRootFile
  deriving DecidableEq

end ArgumentError

structure ArgumentError where
  cause : ArgumentError.Cause
  arg : RawText
  deriving DecidableEq

def ArgumentError.message (e : ArgumentError) : Text :=
  match e.cause with
  | .malformed =>
    "Invalid package argument ".toList ++ e.arg.quoted ++
      ", expected NAMESPACE=SRC_DIR[:ROOT_FILE]".toList
  | .emptyRootFile => "Empty root file in package argument ".toList ++ e.arg.quoted

/-- What an argument names, in the letters of the argument. -/
structure Parts (α : Type) where
  home : List α
  sourceDir : List α
  rootFile? : Option (List α) := none
  deriving DecidableEq

/-- Only the name of a declaration file after the last colon is a root file, so that a drive letter
stays part of the directory. The alphabet of the argument has a `letter` for every character. -/
def parts {α : Type} [DecidableEq α] (letter : Char → α) (arg : List α) :
    Except ArgumentError.Cause (Parts α) :=
  match arg.cutFirst? (letter '=') with
  | none => .error .malformed
  | some (home, place) =>
    if home = [] ∨ place = [] then .error .malformed
    else if place.getLast? = some (letter ':') then .error .emptyRootFile
    else
      match place.cutLast? (letter ':') with
      | none => .ok { home, sourceDir := place }
      | some (dir, root) =>
        if dir ≠ [] ∧ (Declaration.suffix.map letter).isSuffixOf root then
          .ok { home, sourceDir := dir, rootFile? := some root }
        else .ok { home, sourceDir := place }

/-- The package that a text names. Strings with half a surrogate pair are raw texts and left to `ofRawArgument`. -/
def ofArgument (arg : Text) : Except ArgumentError Package :=
  match parts id arg with
  | .error cause => .error ⟨cause, arg.raw⟩
  | .ok p =>
    .ok
      { home := p.home, sourceDir := p.sourceDir,
        rootFile := p.rootFile?.getD "index.d.ts".toList }

end Package

end Rehome
