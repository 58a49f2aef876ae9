import Rehome.Proofs.FileSystem.RealPath
import Rehome.Proofs.Path.Normal

/-! The form of real paths. They are made of plain names behind one slash, or behind two where a link leads
back to itself. -/

namespace Rehome.FileSystem

open Rehome.Path (IsPlain)

variable {fs : FileSystem} {cwd : Location} {P : Trail → Prop} {t : Trail} {segs : List Text} {seen : Seen}

/-- What holds of the root lasts with each step up, and with each step on to a plain name. -/
structure Trail.Closed (P : Trail → Prop) : Prop where
  root : P .root
  up : ∀ t, P t → P t.up
  down : ∀ t n, P t → IsPlain n → P (t.down n)

/-- What was told of any link leads to a way that `P` holds of. -/
def Seen.All (P : Trail → Prop) (seen : Seen) : Prop := ∀ link q, (link, some q) ∈ seen → P q

theorem Seen.mem_of_find? {link : Trail} {r : Option Trail} (h : seen.find? link = some r) :
    (link, r) ∈ seen := by
  obtain ⟨⟨l, r'⟩, hfind, rfl⟩ := Option.map_eq_some_iff.1 h
  have hl := List.find?_some hfind
  obtain rfl : l = link := by simpa using hl
  exact List.mem_of_find?_eq_some hfind

theorem Seen.All.pending (h : seen.All P) (link : Trail) : Seen.All P ((link, none) :: seen) := by
  intro l q hl
  rcases List.mem_cons.1 hl with hl | hl
  · cases hl
  · exact h l q hl

theorem Seen.All.told (h : seen.All P) (link : Trail) {q : Trail} (hq : P q) :
    Seen.All P ((link, some q) :: seen) := by
  intro l q' hl
  rcases List.mem_cons.1 hl with hl | hl
  · cases hl
    exact hq
  · exact h l q' hl

/-- A run of the real path that keeps `P`: of where it ends, and of all that was told of links. -/
def Tells (P : Trail → Prop) (r : Reached × Seen) : Prop := (∀ q, r.1 = .all q → P q) ∧ r.2.All P

theorem trace_tells (hP : Trail.Closed P) {follow : Trail → Text → StateM Seen Reached}
    (hfollow : ∀ link target seen, P link → seen.All P → Tells P (follow link target seen))
    (ht : P t) (hsegs : ∀ s ∈ segs, '/' ∉ s) (hseen : seen.All P) :
    Tells P (fs.trace cwd follow t segs seen) := by
  induction segs generalizing t seen with
  | nil =>
    refine ⟨?_, hseen⟩
    rintro q ⟨⟩
    exact ht
  | cons s rest ih =>
    obtain ⟨hs, hrest⟩ := List.forall_mem_cons.1 hsegs
    unfold trace
    split
    · exact ih ht hrest hseen
    next hskip =>
    split
    · exact ih (hP.up t ht) hrest hseen
    next hup =>
    split
    · exact ⟨by rintro q ⟨⟩, hseen⟩
    have hdown := hP.down t s ht ⟨(not_or.1 hskip).1, (not_or.1 hskip).2, hup, hs⟩
    cases fs.linkTarget? cwd (t.down s) with
    | none => exact ih hdown hrest hseen
    | some target =>
      obtain ⟨hall, hseen'⟩ := hfollow (t.down s) target seen hdown hseen
      dsimp only
      rw [Seen.bind_apply]
      rcases hr : (follow (t.down s) target seen).1 with q | path | _ <;> dsimp only
      · exact ih (hall q hr) hrest hseen'
      · exact ⟨by rintro q ⟨⟩, hseen'⟩
      · exact ⟨by rintro q ⟨⟩, hseen'⟩

theorem reach_tells (hP : Trail.Closed P) {new : Nat} (ht : P t) (hsegs : ∀ s ∈ segs, '/' ∉ s)
    (hseen : seen.All P) : Tells P (fs.reach cwd new t segs seen) := by
  induction new generalizing t segs seen with
  | zero =>
    refine trace_tells hP (fun link target seen _ hseen => ⟨?_, hseen⟩) ht hsegs hseen
    rintro q ⟨⟩
  | succ new ih =>
    refine trace_tells hP (fun link target seen hlink hseen => ?_) ht hsegs hseen
    rw [Seen.bind_apply, Seen.get_apply]
    dsimp only
    rcases hfind : seen.find? link with _ | _ | q <;> dsimp only
    · rw [Seen.bind_apply, Seen.modify_apply, Seen.bind_apply]
      dsimp only
      have hstart : P (link.up.start target) := by
        unfold Trail.start
        split
        · exact hP.root
        · exact hP.up link hlink
      obtain ⟨hall, hseen'⟩ :=
        ih hstart (fun _ => Path.slash_not_mem_of_mem_segments) (hseen.pending link)
      rcases hr : (fs.reach cwd new (link.up.start target) (Path.segments target)
        ((link, none) :: seen)).1 with q | path | _
      · refine ⟨?_, hseen'.told link (hall q hr)⟩
        rintro q' ⟨⟩
        exact hall q hr
      · exact ⟨by rintro q ⟨⟩, hseen'⟩
      · exact ⟨by rintro q ⟨⟩, hseen'⟩
    · exact ⟨by rintro q ⟨⟩, hseen⟩
    · refine ⟨?_, hseen⟩
      rintro q' ⟨⟩
      exact hseen link q (Seen.mem_of_find? hfind)

/-- The way has plain names, and where the path is absolute it starts at the root: nothing on it leads to
the working directory. -/
def Trail.PlainFrom (path : Text) (t : Trail) : Prop :=
  (∀ n ∈ t.names, IsPlain n) ∧ (Path.isAbsolute path = true → t.ups = none)

namespace Trail.PlainFrom

variable {path : Text}

theorem closed : Trail.Closed (Trail.PlainFrom path) where
  root := ⟨by simp [Trail.root], fun _ => rfl⟩
  up := by
    rintro ⟨ups, names⟩ ⟨hnames, hups⟩
    cases names with
    | nil => exact ⟨hnames, fun habs => congrArg (Option.map (· + 1)) (hups habs)⟩
    | cons n names => exact ⟨(List.forall_mem_cons.1 hnames).2, hups⟩
  down := by
    rintro t n ⟨hnames, hups⟩ hn
    exact ⟨List.forall_mem_cons.2 ⟨hn, hnames⟩, hups⟩

theorem start : (Trail.workingDirectory.start path).PlainFrom path := by
  unfold Trail.start
  split
  · exact closed.root
  · next habs => exact ⟨by simp [Trail.workingDirectory], fun h => absurd h habs⟩

theorem location (h : t.PlainFrom path) (hcwd : Path.isAbsolute path = false → ∀ n ∈ cwd, IsPlain n) :
    ∀ n ∈ t.location cwd, IsPlain n := by
  obtain ⟨hnames, hups⟩ := h
  unfold Trail.location
  split
  · exact hnames
  · next k hk =>
    have habs : Path.isAbsolute path = false := by
      rw [← Bool.not_eq_true]
      intro habs
      rw [hups habs] at hk
      cases hk
    exact List.forall_mem_append.2 ⟨hnames, fun n hn => hcwd habs n (List.mem_of_mem_drop hn)⟩

end Trail.PlainFrom

/-- Real paths have plain names behind one slash or two. -/
theorem exists_of_realPath? {path real : Text} (hcwd : Path.isAbsolute path = false → ∀ n ∈ cwd, IsPlain n)
    (h : fs.realPath? cwd path = some real) :
    ∃ L : Location, (∀ n ∈ L, IsPlain n) ∧ (real = L.path ∨ real = '/' :: L.path) := by
  have hsegs : ∀ s ∈ Path.segments path, '/' ∉ s := fun _ => Path.slash_not_mem_of_mem_segments
  have hnone : Seen.All (Trail.PlainFrom path) [] := fun _ _ hl => absurd hl List.not_mem_nil
  have hreach := @reach_tells fs cwd _ _ _ _ Trail.PlainFrom.closed fs.wayCount Trail.PlainFrom.start hsegs hnone
  unfold realPath? at h
  dsimp only at h
  split at h
  · next t hr =>
    exact ⟨t.location cwd, (hreach.1 t hr).location hcwd, .inl (Option.some.inj h).symm⟩
  · next q hr =>
    obtain ⟨a, st, hanch, ha, hreal⟩ := Path.anchored_absolute (show Path.isAbsolute cwd.path = true from rfl) q
    refine ⟨st, hanch.plain, ?_⟩
    rw [← Option.some.inj h, hreal, hanch.ofStack_eq]
    rcases hanch.isAnchor with rfl | rfl | rfl
    · exact absurd rfl ha
    · exact .inl rfl
    · exact .inr rfl
  · cases h

/-- So real paths are in normal form. -/
theorem isNormal_of_realPath? {path real : Text} (hcwd : Path.isAbsolute path = false → ∀ n ∈ cwd, IsPlain n)
    (h : fs.realPath? cwd path = some real) : Path.IsNormal real := by
  obtain ⟨L, hL, rfl | rfl⟩ := exists_of_realPath? hcwd h
  · have hstack : Path.Anchored ['/'] L := ⟨.inr (.inl rfl), hL, .inl (List.cons_ne_nil _ _)⟩
    exact hstack.isNormal (List.cons_ne_nil _ _)
  · have hstack : Path.Anchored ['/', '/'] L := ⟨.inr (.inr rfl), hL, .inl (List.cons_ne_nil _ _)⟩
    exact hstack.isNormal (List.cons_ne_nil _ _)

end Rehome.FileSystem
