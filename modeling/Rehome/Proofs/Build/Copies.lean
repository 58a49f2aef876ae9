import Rehome.Proofs.Build.Source
import Rehome.Proofs.Build.Stages
import Rehome.Proofs.Build.Writing

/-! The copies that a build makes, package after package. -/

namespace Rehome.Build

open FileSystem (pathNames Confined Faded)
open Rehome.Path (IsPlain)

/-- A file that a build writes, by the names on the way there from the destination. -/
structure Output where
  names : List Text
  text : Text
  deriving DecidableEq

/-- A declaration file of a package, by the names on the way there from the source directory. -/
structure Copy where
  package : Package
  names : List Text
  text : Text
  deriving DecidableEq

namespace Copy

def rel (c : Copy) : Text := Path.ofSegments c.names

def entry (c : Copy) : Manifest.Entry := Manifest.entry c.package.home c.rel

/-- The file with its new name and with the text that its new place asks for. -/
def output (c : Copy) : Output where
  names := Path.segments c.package.home ++ c.names
  text := Statement.rehome (Declaration.currentPathOf c.package.home c.rel)
    (Declaration.modulePathOf c.package.home c.rel c.package.rootFile) c.text

end Copy

/-- The copies of a package are those of all declaration files below `S` that are near enough to its source
directory to be listed, each of which holds a text, in the order of their paths. -/
structure Copies (fs : FileSystem) (S : Location) (p : Package) (cs : List Copy) : Prop where
  mem : ∀ c, c ∈ cs ↔ c.package = p ∧ Listed fs p.sourceDir S c.names (.file (.text c.text))
  text : ∀ names x, Listed fs p.sourceDir S names x → ∃ t, x = .file (.text t)
  sorted : (cs.map Copy.rel).Pairwise fun r r' => Text.precedes r r' = true ∧ r ≠ r'

/-- Since `s` the destination `base` was cleaned, and the outputs were written at `D`, the later over
the earlier. -/
structure Stage (s : Host) (base : Text) (D : Location) (outs : List Output) (u : Host) : Prop where
  confined : Confined s.files base D u.files
  faded : Faded (Lost s D) s.cwd u.cwd
  file : ∀ before o after, outs = before ++ o :: after → (∀ o' ∈ after, o'.names ≠ o.names) →
    u.files.lookup (o.names.reverse ++ D) = some (.file (.text o.text))
  inside : ∀ q, D <:+ q → q ≠ D → u.files.lookup q ≠ none →
    ∃ o ∈ outs, q <:+ o.names.reverse ++ D

variable {s u v : Host} {base path : Text} {D S : Location} {outs : List Output} {p : Package}

namespace Stage

theorem since (h : Stage s base D outs u) : Since s D u := ⟨h.confined.toElsewhere, h.faded⟩

theorem log (h : Stage s base D outs u) (l : List LogLine) : Stage s base D outs { u with log := l } :=
  ⟨h.confined, h.faded, h.file, h.inside⟩

/-- Writing one more output keeps those at other places. -/
theorem write {o : Output} (h : Stage s base D outs u) (hbase : ∀ n ∈ pathNames base, IsPlain n)
    (hpath : Below base path o.names) (hplain : ∀ n ∈ o.names, IsPlain n)
    (hw : u.perform (writeText path o.text) = (.ok (), v)) : Stage s base D (outs ++ [o]) v := by
  obtain ⟨hcwd, hconf, hfill⟩ := writeText_ok hpath hbase hplain h.confined hw
  refine ⟨hconf, hcwd ▸ h.faded, fun before o' after hall hafter => ?_, fun q hq hne hl => ?_⟩
  · rcases List.eq_nil_or_concat after with rfl | ⟨after, a, rfl⟩
    · obtain ⟨rfl, ho⟩ := List.append_inj' hall rfl
      cases ho
      exact hfill.file
    · rw [List.concat_eq_append] at hall hafter
      rw [← List.cons_append, ← List.append_assoc] at hall
      obtain ⟨rfl, ha⟩ := List.append_inj' hall rfl
      cases ha
      have hnames : o.names ≠ o'.names := hafter o (by simp)
      refine hfill.lookup_eq (fun he => hnames ?_)
        (h.file before o' after rfl fun b hb => hafter b (List.mem_append_left _ hb))
      exact (List.reverse_injective (List.append_cancel_right he)).symm
  · by_cases hsame : v.files.lookup q = u.files.lookup q
    · rw [hsame] at hl
      obtain ⟨o', ho', hs⟩ := h.inside q hq hne hl
      exact ⟨o', List.mem_append_left _ ho', hs⟩
    · exact ⟨o, List.mem_append_right _ List.mem_cons_self, hfill.suffix_of_ne hsame⟩

end Stage

/-- A declaration file is copied to a path of plain names below the base. -/
theorem below_copy {names : List Text} {x : Node} (habs : Path.isAbsolute base = true)
    (hhome : ∀ n ∈ Path.segments p.home, IsPlain n) (hd : Declares s.files S names x) :
    Below base (Path.join (Path.join base p.home) (Path.ofSegments names))
        (Path.segments p.home ++ names) ∧
      ∀ n ∈ Path.segments p.home ++ names, IsPlain n :=
  below_plain habs hhome hd.ne_nil hd.isPlain

section Package

variable (habs : Path.isAbsolute base = true) (hbase : ∀ n ∈ pathNames base, IsPlain n)
  (hhome : ∀ n ∈ Path.segments p.home, IsPlain n) (hS : Apart s D p.sourceDir S)
include habs hbase hhome hS

/-- One file is copied with the text that was there at first. -/
theorem prepare_ok {names : List Text} {x : Node} {d : Declaration} (h : Stage s base D outs u)
    (hd : Declares s.files S names x)
    (hprep : u.perform (prepare p base (Path.ofSegments names)) = (.ok d, v)) :
    ∃ t, x = .file (.text t) ∧ Manifest.entry d.home d.relPath = (Copy.mk p names t).entry ∧
      Stage s base D (outs ++ [(Copy.mk p names t).output]) v := by
  obtain ⟨t, w, -, hread, rfl, hwrite, l, rfl⟩ := prepare_stages hprep
  obtain rfl := h.since.read_ok hS hd hread
  have hslashed := slashed_ofSegments (hS.noBackslash names _ hd.lookup)
  obtain ⟨hpath, hplain⟩ := below_copy habs hhome hd
  refine ⟨t, rfl, ?_, ?_⟩
  · show Manifest.entry p.home (Path.ofSegments names).slashed = _
    rw [hslashed]
    rfl
  · exact (h.write (o := (Copy.mk p names t).output) hbase hpath hplain hwrite).log _

/-- All files of a list are copied, in order. -/
theorem mapM_prepare_ok {rels : List Text} {ds : List Declaration} (h : Stage s base D outs u)
    (hrels : ∀ rel ∈ rels, ∃ names x, Listed s.files p.sourceDir S names x ∧ Path.ofSegments names = rel)
    (hmap : u.perform (rels.mapM (prepare p base)) = (.ok ds, v)) :
    ∃ cs : List Copy, cs.map Copy.rel = rels ∧
      ds.map (fun d => Manifest.entry d.home d.relPath) = cs.map Copy.entry ∧
      (∀ c ∈ cs, c.package = p ∧ Listed s.files p.sourceDir S c.names (.file (.text c.text))) ∧
      Stage s base D (outs ++ cs.map Copy.output) v := by
  induction rels generalizing outs u ds with
  | nil =>
    rw [List.mapM_nil] at hmap
    cases hmap
    exact ⟨[], rfl, rfl, by simp, by simpa using h⟩
  | cons rel rels ih =>
    rw [List.mapM_cons] at hmap
    obtain ⟨d, w, hprep, hrest⟩ := Host.perform_bind_ok hmap
    obtain ⟨ds, w', htail, hpure⟩ := Host.perform_bind_ok hrest
    cases hpure
    obtain ⟨names, x, hd, rfl⟩ := hrels rel List.mem_cons_self
    obtain ⟨t, rfl, hentry, hw⟩ := prepare_ok habs hbase hhome hS h hd.toDeclares hprep
    obtain ⟨cs, hcs, hds, hmem, hstage⟩ :=
      ih hw (fun r hr => hrels r (List.mem_cons_of_mem _ hr)) htail
    refine ⟨⟨p, names, t⟩ :: cs, ?_, ?_, List.forall_mem_cons.2 ⟨⟨rfl, hd⟩, hmem⟩, ?_⟩
    · rw [List.map_cons, hcs]
      rfl
    · rw [List.map_cons, List.map_cons, hds, hentry]
    · rw [List.map_cons]
      simpa using hstage

/-- A package that is built is copied as a whole. -/
theorem buildPackage_ok {workers : Int} {es : List Manifest.Entry} (h : Stage s base D outs u)
    (hbuild : u.perform (buildPackage base workers p) = (.ok es, v)) :
    ∃ cs, Copies s.files S p cs ∧ es = cs.map Copy.entry ∧
      Stage s base D (outs ++ cs.map Copy.output) v := by
  obtain ⟨rels, _, hscan, hrest⟩ := Host.perform_bind_ok hbuild
  obtain ⟨rfl, hrels, hsorted⟩ := h.since.scan_ok hS hscan
  rw [Host.perform_bind, Host.perform_log] at hrest
  dsimp only at hrest
  split at hrest
  · rw [Host.perform_bind, Host.perform_throw] at hrest
    cases hrest
  obtain ⟨ds, w, hmap, hpure⟩ := Host.perform_bind_ok hrest
  cases hpure
  obtain ⟨cs, rfl, hds, hmem, hstage⟩ :=
    mapM_prepare_ok habs hbase hhome hS (h.log _) (fun rel => (hrels rel).1) hmap
  have hall : ∀ names x, Listed s.files p.sourceDir S names x → ∃ c ∈ cs, c.names = names ∧
      x = .file (.text c.text) := by
    intro names x hd
    obtain ⟨c, hc, hrel⟩ := List.mem_map.1 ((hrels _).2 ⟨names, x, hd, rfl⟩)
    obtain ⟨rfl, rfl⟩ := (hmem c hc).2.eq_of_ofSegments hd.toDeclares hrel
    exact ⟨c, hc, rfl, rfl⟩
  refine ⟨cs, ⟨fun c => ⟨hmem c, ?_⟩, fun names x hd => ?_, hsorted⟩, hds, hstage⟩
  · rintro ⟨rfl, hd⟩
    obtain ⟨c', hc', hnames, htext⟩ := hall _ _ hd
    obtain rfl : c' = c := by
      obtain ⟨p', names', t'⟩ := c'
      obtain ⟨p, names, t⟩ := c
      obtain rfl : p' = p := (hmem _ hc').1
      obtain rfl : names' = names := hnames
      cases htext
      rfl
    exact hc'
  · obtain ⟨c, -, -, rfl⟩ := hall names x hd
    exact ⟨c.text, rfl⟩

end Package

end Rehome.Build
