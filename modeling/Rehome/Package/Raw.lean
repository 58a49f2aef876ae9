import Rehome.Record.Check

/-! Packages named by raw arguments. A string may be empty or must not be, and only one that must not is looked at as a
text, so that half a surrogate pair gets into a home or a directory and not into the name of a root file. -/

namespace Rehome

namespace RawText

def asText (t : RawText) : Checked Text :=
  match t.text? with
  | some t => .ok t
  | none => .fail .notUnicode

def asNonemptyText (t : RawText) : Checked Text :=
  t.asText.bind fun t => Value.asNonemptyText (.text t)

end RawText

structure RawPackage where
  home : RawText
  sourceDir : RawText
  rootFile : Text := "index.d.ts".toList
  deriving DecidableEq

namespace Package

/-- Why no package is read from a raw argument. -/
inductive RawArgumentError where
  | refused (e : ArgumentError)
  /-- Not a package, with what is wrong in which field. -/
  | invalid (issues : List Issue)
  deriving DecidableEq

def raw (p : Package) : RawPackage where
  home := p.home.raw
  sourceDir := p.sourceDir.raw
  rootFile := p.rootFile

def ofRawArgument (arg : RawText) : Except RawArgumentError RawPackage :=
  match parts .scalar arg with
  | .error cause => .error (.refused ⟨cause, arg⟩)
  | .ok { home, sourceDir, rootFile? := none } => .ok { home, sourceDir }
  | .ok { home, sourceDir, rootFile? := some root } =>
    match (RawText.asNonemptyText root).within (.field "root_file".toList) with
    | .ok rootFile => .ok { home, sourceDir, rootFile }
    | .error is => .error (.invalid is)

end Package

end Rehome
