import Rehome.Program

/-! Writing files whose directories may be missing. -/

namespace Rehome.Build

/-- The directory that a path lies in and its last name. One slash at the end counts for nothing. -/
def lastStep (path : Text) : Text × Text :=
  match Path.split path with
  | (head, []) => Path.split head
  | step => step

theorem length_lastStep_lt {path : Text} (h : (lastStep path).2 ≠ []) :
    (lastStep path).1.length < path.length := by
  have hs := Path.length_split_le path
  unfold lastStep at h ⊢
  split
  · next head he =>
    have ht := Path.length_split_le head
    simp only [he] at hs h
    have := List.length_pos_iff.2 h
    simp only [List.length_nil] at hs
    omega
  · next he =>
    split at h
    · next head hd => exact absurd hd (he head)
    · have := List.length_pos_iff.2 h
      omega

/-- A directory at `path`, which may be there already. -/
def makeLeaf (path : Text) : Action Unit :=
  tryCatch (Action.makeDirectory path) fun f =>
    match f with
    | .system .. => do if ← Action.isDirectory path then pure () else throw f
    | f => throw f

/-- `t`, where it counts for nothing that something is there already. -/
def unlessThere (t : Action Unit) : Action Unit :=
  tryCatch t fun f =>
    match f with
    | .system .exists _ => pure ()
    | f => throw f

/-- A directory at `path`, after the directories on the way there. -/
def makeDirectories (path : Text) : Action Unit :=
  let step := lastStep path
  if h : step.1 ≠ [] ∧ step.2 ≠ [] then do
    have := length_lastStep_lt h.2
    if ← Action.exists step.1 then makeLeaf path
    else
      unlessThere (makeDirectories step.1)
      if step.2 = Path.here then pure () else makeLeaf path
  else makeLeaf path
termination_by path.length

/-- A file at `path` that holds `t`. -/
def writeText (path t : Text) : Action Unit := do
  makeDirectories (Path.parent path)
  let p ← Action.create path
  Action.write p t

end Rehome.Build
