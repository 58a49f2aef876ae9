import Rehome.Proofs.Build.Certificate
import Rehome.Proofs.FileSystem.RealForm
import Rehome.Proofs.Program.Faults
import Rehome.Service

/-! Builds that are turned away. The check of the destination comes first and only asks, and nothing that
comes after it ends with a fault of its kind. -/

namespace Rehome

open Rehome.Path (IsPlain)

/-! ### The kinds of faults -/

namespace Fault

/-- The faults of the check of a destination. -/
def IsRefusal : Fault → Prop
  | badManifestName _ | overlap .. => True
  | _ => False

theorem IsRefusal.kind {f : Fault} (h : f.IsRefusal) : f.kind = .build := by
  cases f <;> first | rfl | exact h.elim

end Fault

namespace Build

open Rehome.Action (FaultsIn)

section Faults

variable {F : Fault → Prop} (hF : ∀ f, Fault.OfHost f → F f)
include hF

end Faults

/-! ### What a build that is not turned away may end with -/

end Build

/-! ### Real paths that can be compared -/

/-- Real paths have one leading slash unless a link leads back to itself. -/
theorem Host.exists_realPath {s : Host} {path : Text} (hlinks : s.files.ProperLinks) (hnul : '\x00' ∉ path)
    (hcwd : Path.isAbsolute path = false → s.files.lookup s.cwd = some .directory)
    (hslash : ∀ real, s.realPath path = .ok real → ¬ ['/', '/'] <+: real) :
    ∃ L : Location, (∀ n ∈ L, IsPlain n) ∧ s.realPath path = .ok L.path := by
  rcases hreal : s.realPath path with f | real
  · rcases Build.realPath_error hlinks hreal with h | ⟨habs, hgone⟩
    · exact absurd h hnul
    · exact absurd (hcwd habs) hgone
  · have hcwd' : Path.isAbsolute path = false → ∀ n ∈ s.cwd, IsPlain n := by
      intro habs n hn
      obtain ⟨hne, hhere, hup, hno, -⟩ := FileSystem.isName_of_lookup (hcwd habs) n hn
      exact ⟨hne, hhere, hup, hno⟩
    obtain ⟨L, hL, rfl | rfl⟩ := FileSystem.exists_of_realPath? hcwd' (Host.realPath_ok hreal).1
    · exact ⟨L, hL, rfl⟩
    · exact absurd (List.prefix_append ['/', '/'] _) (hslash _ hreal)

namespace Build

variable {s t : Host} {c : Settings}

/-- The paths that a build is given for directories. -/
def paths (c : Settings) : List Text := c.destination :: c.packages.map (·.sourceDir)

/-- The host tells the real paths of the destination and of all sources. That of a path which leads to a link
back to itself may have a second slash at its start, by which it is told from other paths. -/
structure Resolvable (s : Host) (c : Settings) : Prop where
  links : s.files.ProperLinks
  nulFree : ∀ path ∈ paths c, '\x00' ∉ path
  workingDirectory : ∀ path ∈ paths c, Path.isAbsolute path = false → s.files.lookup s.cwd = some .directory
  oneSlash : ∀ path ∈ Path.absolute s.cwd.path c.destination :: c.packages.map (·.sourceDir),
    ∀ real, s.realPath path = .ok real → ¬ ['/', '/'] <+: real

namespace Resolvable

theorem destination (h : Resolvable s c) :
    ∃ D : Location, (∀ n ∈ D, IsPlain n) ∧
      s.realPath (Path.absolute s.cwd.path c.destination) = .ok D.path := by
  have habs := (destination_plain s.cwd c.destination).1
  have hnul := h.nulFree c.destination List.mem_cons_self
  refine Host.exists_realPath h.links (fun hc => ?_) (fun hrel => by rw [habs] at hrel; cases hrel)
    (h.oneSlash _ List.mem_cons_self)
  rcases Path.mem_normalize hc with hc | hc | hc
  · cases hc
  · cases hc
  by_cases hrel : Path.isAbsolute c.destination = true
  · rw [Path.join, if_pos hrel] at hc
    exact hnul hc
  have hcwd := h.workingDirectory c.destination List.mem_cons_self (by simpa using hrel)
  rcases Path.mem_join hc with hc | hc | hc
  · cases hc
  · rcases List.mem_cons.1 hc with hc | hc
    · cases hc
    rcases Path.mem_ofSegments hc with hc | ⟨n, hn, hc⟩
    · cases hc
    · exact (FileSystem.isName_of_lookup hcwd n (List.mem_reverse.1 hn)).2.2.2.2 hc
  · exact hnul hc

theorem source (h : Resolvable s c) {p : Package} (hp : p ∈ c.packages) :
    ∃ S : Location, (∀ n ∈ S, IsPlain n) ∧ s.realPath p.sourceDir = .ok S.path := by
  have hmem : p.sourceDir ∈ c.packages.map (·.sourceDir) := List.mem_map_of_mem hp
  exact Host.exists_realPath h.links (h.nulFree _ (List.mem_cons_of_mem _ hmem))
    (h.workingDirectory _ (List.mem_cons_of_mem _ hmem)) (h.oneSlash _ (List.mem_cons_of_mem _ hmem))

end Resolvable

end Build

namespace Service

variable {s : Host} {r : Prepare} {body : Value}

end Service

namespace Build

end Build

end Rehome
