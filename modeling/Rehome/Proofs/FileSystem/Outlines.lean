import Rehome.Proofs.FileSystem.Walk

/-! File systems that have the same outline: the same directories and links, and files at the same places,
whatever these hold. Paths lead to the same places in all of them. -/

namespace Rehome

/-- Of one kind, and the same unless both are files. -/
inductive Node.Like : Node → Node → Prop where
  | refl (x : Node) : Like x x
  | file (c d : Content) : Like (.file c) (.file d)

namespace Node.Like

variable {x y z : Node}

theorem trans (h : x.Like y) (h' : y.Like z) : x.Like z := by
  cases h with
  | refl => exact h'
  | file c d =>
    cases h' with
    | refl => exact .file c d
    | file _ e => exact .file c e

theorem eq_of_not_file (h : x.Like y) (hx : ∀ c, x ≠ .file c) : y = x := by
  cases h with
  | refl => rfl
  | file c => exact absurd rfl (hx c)

theorem eq_directory (h : x.Like .directory) : x = .directory := by
  cases h
  rfl

theorem eq_file {c : Content} (h : x.Like (.file c)) : ∃ d, x = .file d := by
  cases h with
  | refl => exact ⟨c, rfl⟩
  | file d => exact ⟨d, rfl⟩

end Node.Like

namespace FileSystem

open Rehome.Path (IsPlain)

/-- Whatever stands in `fs` stands in `fs'`, too, only that a file may hold something else there. -/
def Outlines (fs fs' : FileSystem) : Prop :=
  ∀ q x, fs.lookup q = some x → ∃ y, fs'.lookup q = some y ∧ x.Like y

namespace Outlines

variable {fs fs' fs'' : FileSystem} {q d p : Location} {n : Text} {x : Node}

theorem refl (fs : FileSystem) : fs.Outlines fs := fun _ x hq => ⟨x, hq, .refl x⟩

theorem trans (h : fs.Outlines fs') (h' : fs'.Outlines fs'') : fs.Outlines fs'' := by
  intro q x hq
  obtain ⟨y, hy, hxy⟩ := h q x hq
  obtain ⟨z, hz, hyz⟩ := h' q y hy
  exact ⟨z, hz, hxy.trans hyz⟩

theorem keepsWays (h : fs.Outlines fs') : fs.KeepsWays fs' := by
  intro q x hq hx
  obtain ⟨y, hy, hxy⟩ := h q x hq
  rwa [hxy.eq_of_not_file hx] at hy

theorem of_extends (h : fs.Extends fs') : fs.Outlines fs' := fun q x hq => ⟨x, h q x hq, .refl x⟩

theorem directory (h : fs.Outlines fs') (hq : fs.lookup q = some .directory) :
    fs'.lookup q = some .directory :=
  h.keepsWays q _ hq (by simp)

theorem file {c : Content} (h : fs.Outlines fs') (hq : fs.lookup q = some (.file c)) :
    ∃ d, fs'.lookup q = some (.file d) := by
  obtain ⟨y, hy, hlike⟩ := h q _ hq
  cases hlike with
  | refl => exact ⟨c, hy⟩
  | file _ d => exact ⟨d, hy⟩

/-- Where there is a directory in the end there is one or nothing before. -/
theorem of_directory (h : fs.Outlines fs') (hq : fs'.lookup q = some .directory) :
    fs.lookup q = none ∨ fs.lookup q = some .directory := by
  cases hl : fs.lookup q with
  | none => exact .inl rfl
  | some x =>
    obtain ⟨y, hy, hxy⟩ := h q x hl
    rw [hq] at hy
    cases hy
    exact .inr (congrArg some hxy.eq_directory)

/-- Where there is a file in the end there is one or nothing before. -/
theorem of_file {c : Content} (h : fs.Outlines fs') (hq : fs'.lookup q = some (.file c)) :
    fs.lookup q = none ∨ ∃ d, fs.lookup q = some (.file d) := by
  cases hl : fs.lookup q with
  | none => exact .inl rfl
  | some x =>
    obtain ⟨y, hy, hxy⟩ := h q x hl
    rw [hq] at hy
    cases hy
    obtain ⟨d, rfl⟩ := hxy.eq_file
    exact .inr ⟨d, rfl⟩

/-- What is put where something like it was, or nothing, leaves the outline. -/
theorem put (h : ∀ y, fs.lookup (n :: d) = some y → y.Like x) : fs.Outlines (fs.put d n x) := by
  intro q y hq
  by_cases hroom : fs.HasRoom d n
  swap
  · rw [put_of_not_hasRoom hroom]
    exact ⟨y, hq, .refl y⟩
  by_cases he : q = n :: d
  · subst he
    exact ⟨x, lookup_put_self hroom, h y hq⟩
  · rw [lookup_put_of_ne he]
    exact ⟨y, hq, .refl y⟩

/-- What is put where something like it is in the end stays within the outline. -/
theorem put_left {y : Node} (h : fs.Outlines fs') (hy : fs'.lookup (n :: d) = some y) (hx : x.Like y) :
    (fs.put d n x).Outlines fs' := by
  intro q z hq
  by_cases hroom : fs.HasRoom d n
  swap
  · rw [put_of_not_hasRoom hroom] at hq
    exact h q z hq
  by_cases he : q = n :: d
  · subst he
    rw [lookup_put_self hroom] at hq
    cases hq
    exact ⟨y, hy, hx⟩
  · rw [lookup_put_of_ne he] at hq
    exact h q z hq

/-- File systems that outline each other differ in the contents of files only. -/
theorem lookup_eq (h : fs.Outlines fs') (h' : fs'.Outlines fs)
    (hfile : ∀ c d, fs.lookup q = some (.file c) → fs'.lookup q = some (.file d) → c = d) :
    fs'.lookup q = fs.lookup q := by
  cases hl : fs.lookup q with
  | none =>
    cases hl' : fs'.lookup q with
    | none => rfl
    | some y =>
      obtain ⟨x, hx, -⟩ := h' q y hl'
      rw [hl] at hx
      cases hx
  | some x =>
    obtain ⟨y, hy, hxy⟩ := h q x hl
    cases hxy with
    | refl => exact hy
    | file c d => rw [hy, hfile c d hl hy]

/-! ### Walks -/

section Walk

variable {slash : Bool} {dir : Location} {names : List Text} {links : Nat} {path : Text} {cwd : Location}
  (h : fs.Outlines fs')
include h

theorem leads {via : List Location} (hv : fs.Leads dir names via p) : fs'.Leads dir names via p :=
  hv.mono h.keepsWays

/-- A stride to look at something is as long. -/
theorem stride_look (slash : Bool) (dir : Location) (names : List Text) :
    (∀ d t rest, fs.stride .look slash dir names = .link d t rest →
      fs'.stride .look slash dir names = .link d t rest) ∧
    ∀ q x, fs.stride .look slash dir names = .stop (.ok (.found q x)) → ∃ y, x.Like y ∧
      fs'.stride .look slash dir names = .stop (.ok (.found q y)) := by
  induction names generalizing dir with
  | nil =>
    refine ⟨fun d t rest hs => hs, ?_⟩
    rintro q x ⟨⟩
    exact ⟨.directory, .refl _, rfl⟩
  | cons n rest ih =>
    by_cases hhere : n = Path.here
    · rw [hhere, stride_here, stride_here]
      exact ih dir
    by_cases hup : n = Path.up
    · rw [hup, stride_up, stride_up]
      exact ih dir.tail
    by_cases hsize : maxNameBytes < n.byteSize
    · rw [stride_long hhere hup (by simp) hsize]
      constructor
      · rintro d t rest ⟨⟩
      · rintro q x ⟨⟩
    rw [stride_name hhere hup (by simp) (Nat.not_lt.1 hsize),
      stride_name hhere hup (by simp) (Nat.not_lt.1 hsize)]
    cases hl : fs.lookup (n :: dir) with
    | none =>
      constructor
      · rintro d t rest ⟨⟩
      · intro q x hs
        rw [Stride.stop.injEq] at hs
        split at hs <;> cases hs
    | some x =>
      obtain ⟨y, hy, hxy⟩ := h _ _ hl
      rw [hy]
      cases hxy with
      | file c d =>
        constructor
        · rintro d t rest ⟨⟩
        · intro q x hs
          dsimp only at hs ⊢
          rw [Stride.stop.injEq] at hs
          split at hs
          · next hend =>
            cases hs
            exact ⟨_, .file c d, by rw [if_pos hend]⟩
          · cases hs
      | refl =>
        cases x with
        | directory => exact ih (n :: dir)
        | file c => exact ⟨fun d t rest hs => hs, fun q x hs => ⟨x, .refl x, hs⟩⟩
        | link t => exact ⟨fun d t rest hs => hs, fun q x hs => ⟨x, .refl x, hs⟩⟩

theorem walk_look (hw : fs.walk .look links slash dir names = .ok (.found q x)) :
    ∃ y, x.Like y ∧ fs'.walk .look links slash dir names = .ok (.found q y) :=
  walk_of_strides h.stride_look hw

theorem find_look (hf : fs.find cwd .look path = .ok (.found q x)) :
    ∃ y, x.Like y ∧ fs'.find cwd .look path = .ok (.found q y) := by
  obtain ⟨hne, hsize, hw⟩ := find_ok hf
  rw [find_eq_walk hne hsize]
  exact h.walk_look hw

theorem find_directory (hf : fs.find cwd .look path = .ok (.found q .directory)) :
    fs'.find cwd .look path = .ok (.found q .directory) := by
  obtain ⟨y, hy, hf'⟩ := h.find_look hf
  rwa [hy.eq_of_not_file (by simp)] at hf'

/-- What is found where a path leads to a directory in the end is that directory. -/
theorem find_of_directory (hf' : fs'.find cwd .look path = .ok (.found p .directory))
    (hf : fs.find cwd .look path = .ok (.found q x)) : q = p ∧ x = .directory := by
  obtain ⟨y, hxy, hy⟩ := h.find_look hf
  rw [hf'] at hy
  cases hy
  exact ⟨rfl, hxy.eq_directory⟩

end Walk

end Outlines

/-- Whatever stands in `fs` stands in `fs'`, and a file at `p` still holds what it held. -/
def Spares (p : Location) (fs fs' : FileSystem) : Prop :=
  fs.Outlines fs' ∧ ∀ c, fs.lookup p = some (.file c) → fs'.lookup p = some (.file c)

/-- All files are spared but the one at `p`. -/
def SparesAllBut (p : Location) (fs fs' : FileSystem) : Prop :=
  fs.Outlines fs' ∧ ∀ q x, q ≠ p → fs.lookup q = some x → fs'.lookup q = some x

namespace Spares

variable {p q : Location} {fs fs' fs'' : FileSystem}

theorem refl (p : Location) (fs : FileSystem) : Spares p fs fs := ⟨.refl fs, fun _ hc => hc⟩

theorem trans (h : Spares p fs fs') (h' : Spares p fs' fs'') : Spares p fs fs'' :=
  ⟨h.1.trans h'.1, fun c hc => h'.2 c (h.2 c hc)⟩

theorem of_sparesAllBut (h : SparesAllBut p fs fs') (hne : q ≠ p) : Spares q fs fs' :=
  ⟨h.1, fun c => h.2 q (.file c) hne⟩

end Spares

theorem SparesAllBut.refl (p : Location) (fs : FileSystem) : SparesAllBut p fs fs := ⟨.refl fs, fun _ _ _ hq => hq⟩

theorem SparesAllBut.of_extends {p : Location} {fs fs' : FileSystem} (h : fs.Extends fs') : SparesAllBut p fs fs' :=
  ⟨.of_extends h, fun q x _ => h q x⟩

/-- From `fs` to `fs'` only directories are new, apart from what is done at the places `ps`. -/
def ChangedAt (ps : List Location) (fs fs' : FileSystem) : Prop :=
  ∀ q, q ∉ ps → fs'.lookup q = fs.lookup q ∨ fs.lookup q = none ∧ fs'.lookup q = some .directory

namespace ChangedAt

variable {fs fs' fs'' : FileSystem} {ps ps' : List Location} {q : Location} {x : Node}

theorem refl (ps : List Location) (fs : FileSystem) : ChangedAt ps fs fs := fun _ _ => .inl rfl

theorem mono (h : ChangedAt ps fs fs') (hps : ps ⊆ ps') : ChangedAt ps' fs fs' :=
  fun q hq => h q fun hm => hq (hps hm)

theorem lookup_eq (h : ChangedAt ps fs fs') (hq : q ∉ ps) (hx : fs.lookup q = some x) :
    fs'.lookup q = some x := by
  rcases h q hq with he | ⟨hnone, -⟩
  · exact he.trans hx
  · rw [hx] at hnone
    cases hnone

/-- What is no directory was there before. -/
theorem lookup_eq_of_ne (h : ChangedAt ps fs fs') (hq : q ∉ ps) (hx : fs'.lookup q = some x)
    (hdir : x ≠ .directory) : fs.lookup q = some x := by
  rcases h q hq with he | ⟨-, he⟩
  · exact he.symm.trans hx
  · rw [hx] at he
    exact absurd (Option.some.inj he) hdir

theorem trans (h : ChangedAt ps fs fs') (h' : ChangedAt ps fs' fs'') : ChangedAt ps fs fs'' := by
  intro q hq
  rcases h' q hq with he | ⟨hnone, he⟩
  · rw [he]
    exact h q hq
  · rcases h q hq with he' | ⟨-, he'⟩
    · exact .inr ⟨he'.symm.trans hnone, he⟩
    · rw [hnone] at he'
      cases he'

/-- A directory that was missing is new, wherever it is made. -/
theorem put_directory {d : Location} {n : Text} (h : fs.lookup (n :: d) = none) :
    ChangedAt ps fs (fs.put d n .directory) := by
  intro q _
  by_cases hroom : fs.HasRoom d n
  swap
  · exact .inl (by rw [put_of_not_hasRoom hroom])
  by_cases hq : q = n :: d
  · subst hq
    exact .inr ⟨h, lookup_put_self hroom⟩
  · exact .inl (lookup_put_of_ne hq)

theorem put {d : Location} {n : Text} (h : n :: d ∈ ps) : ChangedAt ps fs (fs.put d n x) := by
  intro q hq
  exact .inl (lookup_put_of_ne fun he => hq (he ▸ h))

end ChangedAt

end FileSystem

end Rehome
