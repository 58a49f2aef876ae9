import Rehome.Path.Basic

/-! Declaration files and their names. A package is rehomed under a `home`, the namespace that its
modules are declared in. -/

namespace Rehome

/-- A declaration file of a package together with its new names. -/
structure Declaration where
  home : Text
  /-- Where the file stands within its package, with slashes. -/
  relPath : Text
  /-- The path that the file's own references are resolved against. -/
  currentPath : Text
  /-- The name that the file's module is declared under. -/
  modulePath : Text
  text : Text
  deriving DecidableEq

namespace Declaration

def suffix : Text := ".d.ts".toList

def isFile (name : Text) : Bool := name.endsWith suffix

def stem (p : Text) : Text := p.stripSuffix suffix

/-- A module named after an index file goes by its directory. -/
def stripIndex (p : Text) : Text := p.stripSuffix "/index".toList

def currentPathOf (home rel : Text) : Text := home ++ '/' :: stem rel.slashed

/-- The root file of a package is its home; every other file is named by its place. -/
def modulePathOf (home rel rootFile : Text) : Text :=
  if rel.slashed = rootFile.slashed then home else stripIndex (currentPathOf home rel)

/-- The file at `rel` of a package, rehomed. -/
def place (home rel rootFile text : Text) : Declaration where
  home
  relPath := rel.slashed
  currentPath := currentPathOf home rel
  modulePath := modulePathOf home rel rootFile
  text

end Declaration

end Rehome
