import Rehome.Text.Basic

/-! Paths as texts. A path is cut into segments at its slashes; `normalize` runs the segments over
a stack, innermost first, so that `..` takes off the segment before it. Nothing here looks at a file
system. -/

namespace Rehome.Path

def up : Text := ['.', '.']

def here : Text := ['.']

def segments (p : Text) : List Text := p.splitOn '/'

def ofSegments (ss : List Text) : Text := ['/'].intercalate ss

/-- Segments that name something: neither empty nor `.`. -/
def components (p : Text) : List Text := (segments p).filter fun s => s ≠ [] ∧ s ≠ here

def isAbsolute (p : Text) : Bool := p.head? = some '/'

def endsInSlash (p : Text) : Bool := p.getLast? = some '/'

/-- `q` as seen from the directory `p`. An absolute `q` stands for itself. -/
def join (p q : Text) : Text :=
  if isAbsolute q then q
  else if p = [] ∨ endsInSlash p then p ++ q
  else p ++ '/' :: q

/-- The leading slashes that a normalised path keeps: two stay two, more than two are one. -/
def anchor : Text → Text
  | '/' :: '/' :: '/' :: _ => ['/']
  | '/' :: '/' :: _ => ['/', '/']
  | '/' :: _ => ['/']
  | _ => []

/-- One more segment. At the bottom of the stack `..` is dropped below a root and kept otherwise,
and it never takes off another `..`. -/
def push (rooted : Bool) (stack : List Text) (s : Text) : List Text :=
  if s = [] ∨ s = here then stack
  else if s = up then
    match stack with
    | [] => if rooted then [] else [up]
    | top :: rest => if top = up then up :: stack else rest
  else s :: stack

def resolveStack (rooted : Bool) (stack : List Text) (ss : List Text) : List Text :=
  ss.foldl (push rooted) stack

/-- The path of a stack of segments. -/
def ofStack (anchor : Text) (stack : List Text) : Text :=
  match anchor ++ ofSegments stack.reverse with
  | [] => here
  | p => p

def normalize (p : Text) : Text :=
  ofStack (anchor p) (resolveStack (isAbsolute p) [] (segments p))

/-- Everything before the last slash, without the slashes that end it, and what follows the last
slash. A head of slashes only is a root and stays. -/
def split (p : Text) : Text × Text :=
  let tail := p.reverse.takeWhile (· ≠ '/')
  let head := p.reverse.dropWhile (· ≠ '/')
  match head.dropWhile (· = '/') with
  | [] => (head.reverse, tail.reverse)
  | trimmed => (trimmed.reverse, tail.reverse)

theorem length_split_le (p : Text) : (split p).1.length + (split p).2.length ≤ p.length := by
  have h := congrArg List.length (List.takeWhile_append_dropWhile (p := (· ≠ '/')) (l := p.reverse))
  simp only [List.length_append, List.length_reverse] at h
  have hd := (List.dropWhile_sublist (l := p.reverse.dropWhile (· ≠ '/')) (· = '/')).length_le
  simp only [split]
  split <;> simp only [List.length_reverse] <;> omega

def parent (p : Text) : Text := (split p).1

def fileName (p : Text) : Text := (split p).2

/-- `p` as a normalised path, seen from the working directory `cwd`. -/
def absolute (cwd p : Text) : Text := normalize (join cwd p)

/-- The longest common beginning of two lists. -/
def commonStart {α : Type} [DecidableEq α] : List α → List α → List α
  | a :: as, b :: bs => if a = b then a :: commonStart as bs else []
  | _, _ => []

/-- One of the two paths lies in the other, as texts go: the path of their common components is one
of them. Paths of different kinds, absolute and relative, have no common path. -/
def overlaps? (p q : Text) : Option Bool :=
  if isAbsolute p ≠ isAbsolute q then none
  else
    let root := if isAbsolute p then ['/'] else []
    let common := root ++ ofSegments (commonStart (components p) (components q))
    some (common = p || common = q)

example : normalize "a/./b//../c/".toList = "a/c".toList := by decide
example : normalize "///a/../..".toList = "/".toList := by decide
example : normalize "../../a/..".toList = "../..".toList := by decide
example : split "//a//b".toList = ("//a".toList, "b".toList) := by decide
example : overlaps? "/a/b".toList "/a/bc".toList = some false := by decide

end Rehome.Path
