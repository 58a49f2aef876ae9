import Rehome.FileSystem.Walk

/-! Real paths, with every link on the way replaced by where it leads. Missing names count as
ordinary ones. A link that leads back to itself stops the replacing, and what follows it stays.

A path from the working directory is followed without a look at where that directory is, so links
are told apart by the way they were reached: a link that was reached from the working directory and
leads to itself by way of the root is met once more there. -/

namespace Rehome.FileSystem

/-- The way to where a path has led so far. No name on it is that of a link. -/
structure Trail where
  /-- How far the way goes up from the working directory before any name; nothing if it starts at
  the root. -/
  ups : Option Nat
  /-- The names on the way, the innermost first. -/
  names : List Text
  deriving DecidableEq

namespace Trail

def root : Trail := ⟨none, []⟩

def workingDirectory : Trail := ⟨some 0, []⟩

/-- One step up. It takes off a name, whatever stands there, and there is none above the root. -/
def up (t : Trail) : Trail :=
  match t.names with
  | _ :: names => { t with names }
  | [] => { t with ups := t.ups.map (· + 1) }

/-- One step on to a name. -/
def down (t : Trail) (n : Text) : Trail := { t with names := n :: t.names }

/-- Where a path starts that is met at the end of the way. -/
def start (t : Trail) (path : Text) : Trail := if Path.isAbsolute path then root else t

/-- Where the way ends, from the working directory `cwd`. -/
def location (cwd : Location) (t : Trail) : Location :=
  match t.ups with
  | none => t.names
  | some n => t.names ++ cwd.drop n

/-- The path that spells the way. -/
def path (t : Trail) : Text :=
  match t.ups with
  | none => Location.path t.names
  | some n => Path.ofSegments (List.replicate n Path.up ++ t.names.reverse)

theorem location_down (cwd : Location) (t : Trail) (n : Text) :
    (t.down n).location cwd = n :: t.location cwd := by
  cases h : t.ups <;> simp [location, down, h]

theorem location_up (cwd : Location) (t : Trail) :
    t.up.location cwd = (t.location cwd).tail := by
  obtain ⟨ups, names⟩ := t
  cases names with
  | cons n names => cases ups <;> rfl
  | nil =>
    cases ups with
    | none => rfl
    | some k => simp [location, up]

end Trail

/-- How far links could be replaced. -/
inductive Reached where
  /-- All of them were replaced. -/
  | all (t : Trail)
  /-- A link leads back to itself; this is its path with what follows it. -/
  | loop (path : Text)
  /-- A name holds a NUL, so nothing can be asked about it. -/
  | nul

/-- The links met so far, the last first, each with where it leads. Nothing is known yet of those
that are being replaced. -/
abbrev Seen := List (Trail × Option Trail)

def Seen.find? (seen : Seen) (link : Trail) : Option (Option Trail) :=
  (List.find? (·.1 = link) seen).map (·.2)

/-- Where the link at the end of the way leads, if there is one. Too long a way is not looked at. -/
def linkTarget? (fs : FileSystem) (cwd : Location) (t : Trail) : Option Text :=
  if maxPathBytes < t.path.byteSize then none
  else
    match fs.lookup (t.location cwd) with
    | some (.link target) => some target
    | _ => none

/-- Follows the segments from `t`. `follow` replaces a link with the given target. -/
def trace (fs : FileSystem) (cwd : Location) (follow : Trail → Text → StateM Seen Reached)
    (t : Trail) : List Text → StateM Seen Reached
  | [] => return .all t
  | s :: rest =>
    if s = [] ∨ s = Path.here then fs.trace cwd follow t rest
    else if s = Path.up then fs.trace cwd follow t.up rest
    else if '\x00' ∈ s then return .nul
    else
      match fs.linkTarget? cwd (t.down s) with
      | none => fs.trace cwd follow (t.down s) rest
      | some target => do
        match ← follow (t.down s) target with
        | .all q => fs.trace cwd follow q rest
        | .loop path => return .loop (Path.join path (Path.ofSegments rest))
        | .nul => return .nul

/-- Follows the segments from `t`. Of links that are not seen yet at most `new` can be inside each
other. -/
def reach (fs : FileSystem) (cwd : Location) (new : Nat) (t : Trail) (segments : List Text) :
    StateM Seen Reached :=
  match new with
  | 0 => fs.trace cwd (fun link _ => return .loop link.path) t segments
  | new + 1 =>
    fs.trace cwd (fun link target => do
      match (← get).find? link with
      | some (some q) => return .all q
      | some none => return .loop link.path
      | none =>
        modify ((link, none) :: ·)
        let r ← fs.reach cwd new (link.up.start target) (Path.segments target)
        if let .all q := r then modify ((link, some q) :: ·)
        return r) t segments

/-- The number of links. -/
def linkCount (fs : FileSystem) : Nat :=
  fs.entries.countP fun e =>
    match e.2 with
    | .link _ => true
    | _ => false

/-- The most ways on which links are looked at: each link from the root, and from every height above
the working directory that a path has room for. -/
def wayCount (fs : FileSystem) : Nat := fs.linkCount * (maxPathBytes + 2)

/-- The real path of a path, seen from the working directory `cwd`. -/
def realPath? (fs : FileSystem) (cwd : Location) (path : Text) : Option Text :=
  let start := Trail.workingDirectory.start path
  match (fs.reach cwd fs.wayCount start (Path.segments path) []).1 with
  | .all t => some (t.location cwd).path
  | .loop q => some (Path.absolute cwd.path q)
  | .nul => none

end Rehome.FileSystem
