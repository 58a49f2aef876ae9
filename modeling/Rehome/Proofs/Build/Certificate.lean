import Rehome.Proofs.Build.Concurrent
import Rehome.Proofs.Build.Publication

/-! A manifest certifies a complete build. The one of an earlier build is removed before anything is
written, no copy comes to its place, and the new one is the last thing that is written, so after a build
that failed, however far its workers had come, there is none. -/

namespace Rehome

open FileSystem (pathNames startOf Confined Faded)
open Rehome.Path (IsPlain)

/-! ### Names that lead somewhere -/

namespace FileSystem

variable {fs : FileSystem} {dir p : Location} {names : List Text} {via : List Location} {path : Text}

end FileSystem

namespace Build

variable {s t u v : Host} {base name path txt : Text} {D : Location} {ns : List Text}

/-! ### Where no manifest stands -/

/-- Since `s` the destination `base`, which leads to `D`, was cleaned, and no file of that name is at `D`. -/
structure Unpublished (s : Host) (base : Text) (D : Location) (name : Text) (u : Host) : Prop where
  confined : Confined s.files base D u.files
  faded : Faded (Lost s D) s.cwd u.cwd
  noFile : ∀ c, u.files.lookup (name :: D) ≠ some (.file c)

namespace Unpublished

theorem since (h : Unpublished s base D name u) : Since s D u := ⟨h.confined.toElsewhere, h.faded⟩

theorem log (h : Unpublished s base D name u) (l : List LogLine) :
    Unpublished s base D name { u with log := l } :=
  ⟨h.confined, h.faded, h.noFile⟩

/-- What is put elsewhere, or is no file, is no manifest. -/
theorem lookup_put {d : Location} {n : Text} {x : Node} (h : Unpublished s base D name u)
    (hx : n :: d = name :: D → ∀ c, x ≠ .file c) (c : Content) :
    (u.files.put d n x).lookup (name :: D) ≠ some (.file c) := by
  by_cases hroom : u.files.HasRoom d n
  swap
  · rw [FileSystem.put_of_not_hasRoom hroom]
    exact h.noFile c
  by_cases he : n :: d = name :: D
  · rw [← he, FileSystem.lookup_put_self hroom]
    exact fun hc => hx he c (Option.some.inj hc)
  · rw [FileSystem.lookup_put_of_ne (Ne.symm he)]
    exact h.noFile c

theorem makeDirectory (h : Unpublished s base D name u) (hpath : FileSystem.Along base path) :
    Unpublished s base D name (u.answer (.makeDirectory path)).2 := by
  refine ⟨Host.confined_makeDirectory h.confined hpath,
    (u.answer_makeDirectory_cwd path).symm ▸ h.faded, ?_⟩
  rcases u.answer_makeDirectory path with ⟨e, he⟩ | ⟨d, n, -, -, he⟩ <;> rw [he]
  · exact h.noFile
  · exact h.lookup_put (by simp)

/-- A file that is more than one name away from the base is opened elsewhere. -/
theorem create (h : Unpublished s base D name u) (hpath : Below base path ns)
    (hplain : ∀ n ∈ ns, IsPlain n) (hlen : 2 ≤ ns.length) :
    Unpublished s base D name (u.answer (.create path)).2 ∧
      ∀ p, (u.answer (.create path)).1 = .ok p → ∃ n d, p = n :: d ∧ D <:+ d ∧ d ≠ D := by
  rcases hcreate : u.answer (.create path) with ⟨e | p, w⟩
  · rcases u.answer_create path with ⟨e', he⟩ | ⟨p, -, -, he⟩ <;> rw [hcreate] at he <;> cases he
    exact ⟨h, by simp⟩
  obtain ⟨init, n, via, d, rfl, rfl, hd, hv, -, rfl⟩ := Host.create_inside h.confined hpath.isAbsolute
    hpath.names hpath.ne_nil hpath.stays hcreate
  have hinit : d = init.reverse ++ D :=
    h.confined.site_below (fun k hk => hplain k (List.mem_append_left _ hk)) hv.site
  have hne : d ≠ D := by
    intro he
    have hnil := List.self_eq_append_left.1 (he.symm.trans hinit)
    rw [List.length_append, List.length_singleton, List.reverse_eq_nil_iff.1 hnil] at hlen
    exact absurd hlen (by decide)
  refine ⟨⟨h.confined.put_inside hd (by simp), h.faded, ?_⟩, ?_⟩
  · exact h.lookup_put fun he => absurd (List.cons.inj he).2 hne
  · rintro _ ⟨⟩
    exact ⟨n, d, rfl, hd, hne⟩

theorem write {n : Text} {d : Location} (h : Unpublished s base D name u) (hd : D <:+ d) (hne : d ≠ D)
    (txt : Text) :
    Unpublished s base D name { u with files := u.files.putFile (n :: d) (.text txt) } :=
  ⟨h.confined.put_inside hd (by simp), h.faded, h.lookup_put fun he => absurd (List.cons.inj he).2 hne⟩

end Unpublished

/-- What a build may come to, as far as its sources can tell: nothing was done yet, or the destination was
removed and worked in. -/
def Underway (s : Host) (base : Text) (u : Host) : Prop :=
  u.files = s.files ∧ u.cwd = s.cwd ∨ ∃ D, s.files.Site [] (pathNames base) D ∧ Since s D u

/-- Where there are no links with a NUL, only a NUL or a missing working directory keeps a path from having
a real one. -/
theorem realPath_error {f : Fault} (hlinks : s.files.ProperLinks) (h : s.realPath path = .error f) :
    '\x00' ∈ path ∨ Path.isAbsolute path = false ∧ s.files.lookup s.cwd ≠ some .directory := by
  by_contra hno
  obtain ⟨hnul, hcwd⟩ := not_or.1 hno
  obtain ⟨q, hq⟩ := Option.ne_none_iff_exists'.1
    (FileSystem.realPath?_ne_none hlinks hnul)
  rw [Host.realPath, hq] at h
  dsimp only at h
  split at h
  · cases h
  · next habs =>
    have hthere : s.files.lookup s.cwd = some .directory := by
      by_contra hgone
      exact hcwd ⟨by simpa using habs, hgone⟩
    rw [Host.workingDirectory, if_pos hthere] at h
    cases h

section Fill

variable {c : Settings} {f : Fault} (habs : Path.isAbsolute base = true)
  (hname : Manifest.isPlainName c.manifestName = true)
  (hhome : ∀ p ∈ c.packages, ∀ n ∈ Path.segments p.home, IsPlain n)
include habs hname hhome

end Fill

/-- A source that stands apart from the destination has no names with a backslash in the course of a build. -/
theorem Underway.noBackslash {dir : Text} {S : Location} (hu : Underway s base u)
    (hS : Apart s D dir S) (hsite : ∀ D', s.files.Site [] (pathNames base) D' → D' = D) :
    ∀ names ∈ u.files.files u.cwd dir, ∀ n ∈ names, '\\' ∉ n := by
  have hback : ∀ v : Host, v.files.find v.cwd .look dir = .ok (.found S .directory) →
      (∀ q, S <:+ q → v.files.lookup q = s.files.lookup q) →
      ∀ names ∈ v.files.files v.cwd dir, ∀ n ∈ names, '\\' ∉ n := by
    intro v hfound hsame names hmem
    obtain ⟨-, x, hx⟩ := (FileSystem.mem_files_of_found hfound).1 hmem
    have hl := hx.lookup
    rw [hsame _ (List.suffix_append ..)] at hl
    exact hS.noBackslash names x hl
  intro names hmem
  obtain ⟨S', hfound⟩ := FileSystem.found_of_mem_files hmem
  rcases hu with ⟨hfiles, hcwd⟩ | ⟨D', hD', hsince⟩
  · have hspelt := hS.spelt
    obtain ⟨via', hspelt, -⟩ := hspelt
    obtain ⟨via, -, hv⟩ := FileSystem.leads_of_find hfound
    rw [hfiles, hcwd] at hv
    obtain ⟨-, rfl⟩ := hv.traces.deterministic hspelt.traces
    exact hback u hfound (fun q _ => by rw [hfiles]) names hmem
  · obtain rfl := hsite D' hD'
    obtain rfl := hsince.eq_of_found hS hfound
    exact hback u hfound (fun q hq => hsince.lookup_eq hS hq) names hmem

end Build

end Rehome
