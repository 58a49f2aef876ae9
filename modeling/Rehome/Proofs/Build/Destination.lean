import Rehome.Build.Destination
import Rehome.Proofs.FileSystem.RealPath
import Rehome.Proofs.FileSystem.Removal
import Rehome.Proofs.Path.Overlap
import Rehome.Proofs.Program.Keeps

/-! The check of a destination asks only, and cleaning it removes at most what is inside it. -/

namespace Rehome

namespace Host

/-- The real path that a host tells is that of its files. -/
theorem realPath_ok {s : Host} {path q : Text} (h : s.realPath path = .ok q) :
    s.files.realPath? s.cwd path = some q ∧
      (Path.isAbsolute path = false → s.files.lookup s.cwd = some .directory) := by
  unfold realPath at h
  split at h
  · next r hr =>
    split at h
    · next habs =>
      cases h
      exact ⟨hr, by simp [habs]⟩
    · unfold workingDirectory at h
      split at h
      · next hcwd =>
        cases h
        exact ⟨hr, fun _ => hcwd⟩
      · cases h
  · cases h

theorem realPath_of_spelt {s : Host} {path : Text} {via : List Location} {S : Location}
    (h : s.files.Spelt s.cwd path via S)
    (hcwd : Path.isAbsolute path = false → s.files.lookup s.cwd = some .directory) :
    s.realPath path = .ok S.path := by
  unfold realPath
  rw [h.realPath?_eq]
  dsimp only
  split
  · rfl
  · next habs =>
    rw [workingDirectory, if_pos (hcwd (by simpa using habs))]
    rfl

end Host

namespace Build

open FileSystem (pathNames)
open Rehome.Path (IsPlain)

variable {s t : Host} {packages : List Package} {destination manifestName real : Text}

theorem checkSource_keeps {I : Host → Prop} (p : Package) :
    (checkSource destination real p).Keeps I fun _ => True := by
  refine (Action.Keeps.realPath _).bind fun source _ => ?_
  split
  · exact .throw _
  · exact .pure trivial

theorem checkDestination_keeps {I : Host → Prop} :
    (checkDestination packages destination manifestName).Keeps I fun _ => True := by
  unfold checkDestination
  split
  · exact (Action.Keeps.realPath _).bind fun _ _ => .forM fun p _ => checkSource_keeps p
  · exact .throw _

theorem checkDestination_host (s : Host) (packages : List Package) (destination manifestName : Text) :
    (s.perform (checkDestination packages destination manifestName)).2 = s :=
  (Host.run_keeps (I := (· = s)) checkDestination_keeps rfl).1

theorem checkDestination_host_eq {r : Except Fault Unit}
    (h : s.perform (checkDestination packages destination manifestName) = (r, t)) : t = s := by
  have hhost := checkDestination_host s packages destination manifestName
  rwa [h] at hhost

theorem checkSource_ok {p : Package} (h : s.perform (checkSource destination real p) = (.ok (), t)) :
    t = s ∧ ∃ source, s.realPath p.sourceDir = .ok source ∧
      Path.overlaps? real source ≠ some true := by
  obtain ⟨source, u, hr, h⟩ := Host.perform_bind_ok h
  rw [Host.perform_realPath, Prod.mk.injEq] at hr
  obtain ⟨hr, rfl⟩ := hr
  split at h
  · cases h
  · next ho =>
    cases h
    exact ⟨rfl, source, hr, ho⟩

theorem forM_checkSource_ok (h : s.perform (packages.forM (checkSource destination real)) = (.ok (), t)) :
    ∀ p ∈ packages, ∃ source, s.realPath p.sourceDir = .ok source ∧
      Path.overlaps? real source ≠ some true := by
  induction packages with
  | nil => simp
  | cons p ps ih =>
    rw [List.forM_eq_forM, List.forM_cons] at h
    obtain ⟨⟨⟩, u, hp, hps⟩ := Host.perform_bind_ok h
    obtain ⟨rfl, hp⟩ := checkSource_ok hp
    exact List.forall_mem_cons.2 ⟨hp, ih hps⟩

/-- A destination that passes has a real path that shares no tree with that of a source. -/
theorem checkDestination_ok
    (h : s.perform (checkDestination packages destination manifestName) = (.ok (), t)) :
    Manifest.isPlainName manifestName = true ∧ ∃ real, s.realPath destination = .ok real ∧
      ∀ p ∈ packages, ∃ source, s.realPath p.sourceDir = .ok source ∧
        Path.overlaps? real source ≠ some true := by
  unfold checkDestination at h
  split at h
  · next hname =>
    obtain ⟨real, u, hr, h⟩ := Host.perform_bind_ok h
    rw [Host.perform_realPath, Prod.mk.injEq] at hr
    obtain ⟨hr, rfl⟩ := hr
    exact ⟨hname, real, hr, forM_checkSource_ok h⟩
  · cases h

/-- A destination passes whose real path shares no tree with that of a source. -/
theorem perform_checkDestination (hname : Manifest.isPlainName manifestName = true)
    (hreal : s.realPath destination = .ok real) (hsources : ∀ p ∈ packages,
      ∃ source, s.realPath p.sourceDir = .ok source ∧ Path.overlaps? real source ≠ some true) :
    s.perform (checkDestination packages destination manifestName) = (.ok (), s) := by
  rw [checkDestination, if_pos hname, Host.perform_bind, Host.perform_realPath, hreal]
  dsimp only
  induction packages with
  | nil => rfl
  | cons p ps ih =>
    obtain ⟨source, hsource, hoverlap⟩ := hsources p List.mem_cons_self
    have hp : s.perform (checkSource destination real p) = (.ok (), s) := by
      rw [checkSource, Host.perform_bind, Host.perform_realPath, hsource]
      dsimp only
      rw [if_neg hoverlap, Host.perform_pure]
    rw [List.forM_eq_forM, List.forM_cons, Host.perform_bind, hp]
    exact ih fun p hp => hsources p (List.mem_cons_of_mem _ hp)

/-- A destination that passes stands apart from every source. -/
theorem apart_of_check {p : Package} {source : Text} {D S : Location} {via via' : List Location}
    (hdest : s.realPath destination = .ok real) (hsource : s.realPath p.sourceDir = .ok source)
    (hcheck : Path.overlaps? real source ≠ some true)
    (hD : s.files.Spelt s.cwd destination via D) (hS : s.files.Spelt s.cwd p.sourceDir via' S) :
    ¬ D <:+ S ∧ ¬ S <:+ D := by
  have hreal : some D.path = some real := hD.realPath?_eq.symm.trans (Host.realPath_ok hdest).1
  have hreal' : some S.path = some source := hS.realPath?_eq.symm.trans (Host.realPath_ok hsource).1
  rw [← Option.some.inj hreal, ← Option.some.inj hreal', Path.overlaps?_path
    (hD.isPlain (Host.realPath_ok hdest).2) (hS.isPlain (Host.realPath_ok hsource).2)] at hcheck
  simpa using hcheck

/-- What cleaning the destination `base` may do to a host. -/
inductive Cleaned (s : Host) (base : Text) : Except Fault Unit → Host → Prop where
  /-- There is no directory to be removed. -/
  | absent (h : s.files.isDirectory s.cwd base = false) : Cleaned s base (.ok ()) s
  | removed {t : Host} {D : Location} {via via' : List Location}
      (hv : s.files.Leads [] (pathNames base) via D)
      (hv' : (s.files.clear D).Leads [] (pathNames base) via' D)
      (hfiles : t.files = (s.files.clear D).prune D)
      (hcwd : t.cwd = t.files.withoutGone s.cwd) : Cleaned s base (.ok ()) t
  /-- The destination is a link, or cannot be removed, and everything stays. -/
  | kept {t : Host} {e : Fault} (hfiles : t.files = s.files) : Cleaned s base (.error e) t
  /-- What the destination held is gone, but it cannot be removed itself. -/
  | emptied {t : Host} {e : Fault} {D : Location} {via : List Location}
      (hv : s.files.Leads [] (pathNames base) via D)
      (hfiles : t.files = s.files.clear D) : Cleaned s base (.error e) t

theorem cleaned_removeTree {base : Text} {u : Host} (habs : Path.isAbsolute base = true)
    (hplain : ∀ n ∈ pathNames base, IsPlain n) (hfiles : u.files = s.files) (hcwd : u.cwd = s.cwd) :
    Cleaned s base (u.removeTree base).1 (u.removeTree base).2 := by
  unfold Host.removeTree
  split
  · exact .kept hfiles
  have hcases := s.files.removeTree_cases s.cwd hplain
  rw [FileSystem.startOf_of_isAbsolute habs] at hcases
  rw [hfiles, hcwd]
  rcases hcases with ⟨e, he⟩ | ⟨D, via, hv, ⟨e, he⟩ | ⟨via', hv', he⟩⟩
  · rw [he]
    cases e <;> exact .kept rfl
  · rw [he]
    cases e <;> exact .emptied hv rfl
  · rw [he]
    exact .removed hv hv' rfl (by rw [← hcwd]; rfl)

theorem cleaned_cleanDestination {base : Text} (habs : Path.isAbsolute base = true)
    (hplain : ∀ n ∈ pathNames base, IsPlain n) :
    Cleaned s base (s.perform (cleanDestination base)).1 (s.perform (cleanDestination base)).2 := by
  unfold cleanDestination
  rw [Host.perform_bind, Host.perform_isDirectory]
  dsimp only
  split
  · rw [Host.perform_bind, Host.perform_log]
    exact cleaned_removeTree habs hplain rfl rfl
  · next h => exact .absent (by simpa using h)

end Build

end Rehome
