import Rehome.Build.Run
import Rehome.Proofs.Build.Destination
import Rehome.Proofs.Build.Output
import Rehome.Proofs.FileSystem.Confined
import Rehome.Proofs.Text.Sort

/-! A build is confined to its destination. What it makes, fills and removes lies in the directory that
the destination leads to, as long as no file is given a place that leads out of it. -/

namespace Rehome

open FileSystem (pathNames Along Confined Trail)
open Rehome.Path (IsPlain StaysWithin)

namespace Build

variable {base path home rel t : Text} {I : Host → Prop} {Q : Location → Prop}

/-- The path of a file within its package, seen from the home, neither starts at the root nor leads
above where it starts. -/
structure Inward (home rel : Text) : Prop where
  homeRelative : Path.isAbsolute home = false
  relRelative : Path.isAbsolute rel = false
  stays : StaysWithin 0 (Path.segments home ++ Path.segments rel)

instance (home rel : Text) : Decidable (Inward home rel) :=
  decidable_of_iff (Path.isAbsolute home = false ∧ Path.isAbsolute rel = false ∧
      StaysWithin 0 (Path.segments home ++ Path.segments rel))
    ⟨fun ⟨h₁, h₂, h₃⟩ => ⟨h₁, h₂, h₃⟩, fun ⟨h₁, h₂, h₃⟩ => ⟨h₁, h₂, h₃⟩⟩

/-- The declaration files that a scan of the directory finds, not yet in order. -/
def declarations (s : Host) (dir : Text) : List Text :=
  ((s.files.files s.cwd dir).filter fun names => names.getLast?.any Declaration.isFile).map
    fun names => (Path.ofSegments names).slashed

/-! ### Places below the destination -/

theorem staysWithin_pathNames {depth : Nat} (h : StaysWithin depth (Path.segments home ++ Path.segments rel)) :
    StaysWithin depth (pathNames home ++ pathNames rel) := by
  rw [pathNames, pathNames, ← List.filter_append]
  exact h.filter (by decide) fun s hs => by simpa using hs.ne_nil

/-- A path that goes on from the base along names that stay within it. -/
structure Below (base path : Text) (ns : List Text) : Prop where
  isAbsolute : Path.isAbsolute path = true
  text : base <+: path
  names : pathNames path = pathNames base ++ ns
  stays : StaysWithin 0 ns
  ne_nil : ns ≠ []

theorem Below.along {ns : List Text} (h : Below base path ns) : Along base path :=
  ⟨h.isAbsolute, .inr h.text, .inr ⟨ns, h.names, h.stays⟩⟩

theorem Below.isPlain {ns : List Text} (h : Below base path ns) (hbase : ∀ n ∈ pathNames base, IsPlain n)
    (hns : ∀ n ∈ ns, IsPlain n) : ∀ n ∈ pathNames path, IsPlain n := by
  rw [h.names]
  intro n hn
  exact (List.mem_append.1 hn).elim (hbase n) (hns n)

theorem below_join (habs : Path.isAbsolute base = true) (h : Inward home rel)
    (hrel : pathNames rel ≠ []) :
    Below base (Path.join (Path.join base home) rel) (pathNames home ++ pathNames rel) where
  isAbsolute := Path.isAbsolute_join_of_absolute (Path.isAbsolute_join_of_absolute habs _) _
  text := (Path.prefix_join base h.homeRelative).trans (Path.prefix_join _ h.relRelative)
  names := by
    rw [FileSystem.pathNames_join _ h.relRelative,
      FileSystem.pathNames_join _ h.homeRelative, List.append_assoc]
  stays := staysWithin_pathNames h.stays
  ne_nil := List.append_ne_nil_of_right_ne_nil _ hrel

theorem isPlain_of_isPlainName {name : Text} (h : Manifest.isPlainName name = true) :
    IsPlain name := by
  simp only [Manifest.isPlainName, Bool.and_eq_true, decide_eq_true_eq] at h
  exact ⟨h.1.1.1.1, h.1.2, h.2, h.1.1.1.2⟩

theorem below_manifest {name : Text} (habs : Path.isAbsolute base = true)
    (hname : Manifest.isPlainName name = true) : Below base (Path.join base name) [name] := by
  have hplain := isPlain_of_isPlainName hname
  have hrel := Path.isAbsolute_eq_false_of_plain hplain
  refine ⟨Path.isAbsolute_join_of_absolute habs _, Path.prefix_join _ hrel, ?_, .of_plain ?_, by simp⟩
  · rw [FileSystem.pathNames_join _ hrel, FileSystem.pathNames_eq_singleton hplain.ne_nil hplain.slash_not_mem]
  · simpa using hplain

theorem pathNames_ne_nil_of_isFile (h : Declaration.isFile rel = true) : pathNames rel ≠ [] := by
  intro hnil
  obtain ⟨p, rfl⟩ := List.isSuffixOf_iff_suffix.1 h
  have hdot := FileSystem.ne_slash_of_pathNames_eq_nil hnil '.'
    (List.mem_append_right _ (by decide))
  cases hdot

/-- What a scan finds are declaration files by name. -/
theorem isFile_of_mem_declarations {s : Host} {dir : Text} (h : rel ∈ declarations s dir) :
    Declaration.isFile rel = true := by
  obtain ⟨names, hnames, rfl⟩ := List.mem_map.1 h
  obtain ⟨n, hlast, hn⟩ := (Option.any_eq_true _ _).1 (List.mem_filter.1 hnames).2
  have hsuffix : Declaration.suffix <:+ Path.ofSegments names :=
    (List.isSuffixOf_iff_suffix.1 hn).trans (Path.suffix_ofSegments hlast)
  exact List.isSuffixOf_iff_suffix.2 (hsuffix.map fun c => if c = '\\' then '/' else c)

/-! ### What is kept below the destination is kept by a build -/

/-- An invariant that is kept by everything done along the base. `Q` is what is known of the places of
the files that were opened. -/
structure KeptBelow (base : Text) (I : Host → Prop) (Q : Location → Prop) : Prop where
  log : ∀ s l, I s → I { s with log := l }
  makeDirectory : ∀ s path, I s → Along base path → I (s.answer (.makeDirectory path)).2
  create : ∀ s path ns, I s → Below base path ns → I (s.answer (.create path)).2 ∧
    ∀ p, (s.answer (.create path)).1 = .ok p → Q p
  write : ∀ s p t, I s → Q p → I { s with files := s.files.putFile p (.text t) }

/-- Everything that a build does once its destination is clean. -/
def fill (base : Text) (c : Settings) : Action Build := do
  let entries ← buildPackages base c.workers c.packages
  let manifestPath := Path.join base c.manifestName
  writeText manifestPath (Manifest.render entries)
  Action.log .info ("Wrote manifest with ".toList ++ Text.ofNat entries.length ++
    " entries to ".toList ++ manifestPath)
  return { destination := base, manifestPath, entries }

theorem run_eq (cwd : Text) (c : Settings) :
    run cwd c = (do
      checkDestination c.packages (Path.absolute cwd c.destination) c.manifestName
      cleanDestination (Path.absolute cwd c.destination)
      fill (Path.absolute cwd c.destination) c) := rfl

section Keeps

variable (hI : KeptBelow base I Q)
include hI

theorem writeText_keptBelow {ns : List Text} (hpath : Below base path ns) :
    (writeText path t).Keeps I fun _ => ∃ p, Q p := by
  refine writeText_keeps (fun q hne hpre hnames s hs => ?_)
    (fun s hs => hI.create s path ns hs hpath) fun p hp s hs => hI.write s p t hs hp
  exact hI.makeDirectory s q hs (hpath.along.head hpre hnames hne)

theorem prepare_keptBelow (habs : Path.isAbsolute base = true) {p : Package}
    (hrel : Inward p.home rel) (hfile : Declaration.isFile rel = true) :
    (prepare p base rel).Keeps I fun _ => True := by
  refine (Action.Keeps.read _).bind fun t _ => ?_
  refine (writeText_keptBelow hI
    (below_join habs hrel (pathNames_ne_nil_of_isFile hfile))).bind fun _ _ => ?_
  exact (Action.Keeps.log hI.log _ _).bind fun _ _ => .pure trivial

omit hI in
theorem scan_keeps (dir : Text) :
    (scan dir).Keeps I fun rels => ∃ s, I s ∧ ∀ rel ∈ rels, rel ∈ declarations s dir := by
  refine (Action.Keeps.isDirectory _).bind fun there _ => ?_
  split
  · refine (Action.Keeps.files fun s hs => ⟨s, hs, rfl⟩ :
      Action.Keeps I (fun names => ∃ s, I s ∧ names = s.files.files s.cwd dir) _).bind ?_
    rintro names ⟨s, hs, rfl⟩
    have hsort : ∀ rel ∈ Text.sort (declarations s dir), rel ∈ declarations s dir :=
      fun rel hrel => Text.mem_sort.1 hrel
    dsimp only
    split
    · exact (Action.Keeps.workingDirectory.bind fun _ _ => .pure trivial).bind
        fun _ (_ : True) => .pure ⟨s, hs, hsort⟩
    · exact .pure ⟨s, hs, hsort⟩
  · exact .throw _

omit hI in
theorem addEntries_keeps (es more : List Manifest.Entry) :
    (addEntries es more).Keeps I fun _ => True := by
  induction more generalizing es with
  | nil => exact .pure trivial
  | cons e more ih =>
    unfold addEntries
    split
    · exact .throw _
    · exact ih _

end Keeps

/-! ### Two invariants -/

/-- Nothing is done where the base is out of reach. -/
theorem keptBelow_unreached {s₁ : Host} (habs : Path.isAbsolute base = true)
    (hplain : ∀ n ∈ pathNames base, IsPlain n) (hreach : ¬ s₁.WithinReach base) :
    KeptBelow base (fun s => s.files = s₁.files ∧ s.cwd = s₁.cwd) fun _ => False := by
  have hreach' : ∀ s : Host, s.files = s₁.files ∧ s.cwd = s₁.cwd → ¬ s.WithinReach base := by
    rintro s ⟨hfiles, hcwd⟩
    rwa [Host.WithinReach, hfiles, hcwd]
  refine ⟨fun _ _ h => h, fun s path hs hpath => ?_, fun s path ns hs hpath => ?_, ?_⟩
  · rwa [Host.makeDirectory_of_not_withinReach (hreach' s hs) habs hplain hpath]
  · obtain ⟨e, he⟩ := Host.create_of_not_withinReach (hreach' s hs) habs hpath.text hpath.names
      hpath.ne_nil
    rw [he]
    exact ⟨hs, by simp⟩
  · exact fun _ _ _ _ h => h.elim

theorem keptBelow_confined (fs₁ : FileSystem) (D : Location) :
    KeptBelow base (fun s => Confined fs₁ base D s.files) fun p => ∃ n d, p = n :: d ∧ D <:+ d where
  log := fun _ _ h => h
  makeDirectory := fun _ _ hs hpath => Host.confined_makeDirectory hs hpath
  create := fun _ _ _ hs hpath =>
    Host.confined_create hs hpath.isAbsolute hpath.names hpath.ne_nil hpath.stays
  write := by
    rintro s _ t hs ⟨n, d, rfl, hd⟩
    exact hs.put_inside hd (by simp)

/-- What is done along the base leaves the working directory. -/
theorem KeptBelow.with_cwd (h : KeptBelow base I Q) (cwd : Location) :
    KeptBelow base (fun s => I s ∧ s.cwd = cwd) Q where
  log := fun s l hs => ⟨h.log s l hs.1, hs.2⟩
  makeDirectory := fun s q hs hq =>
    ⟨h.makeDirectory s q hs.1 hq, (s.answer_makeDirectory_cwd q).trans hs.2⟩
  create := by
    intro s path ns hs hpath
    obtain ⟨hI, hQ⟩ := h.create s path ns hs.1 hpath
    refine ⟨⟨hI, ?_⟩, hQ⟩
    rcases s.answer_create path with ⟨e, he⟩ | ⟨p, -, -, he⟩ <;> rw [he] <;> exact hs.2
  write := fun s p t hs hp => ⟨h.write s p t hs.1 hp, hs.2⟩

/-- The destination of a build is an absolute path of plain names. -/
theorem destination_plain (cwd : Location) (destination : Text) :
    Path.isAbsolute (Path.absolute cwd.path destination) = true ∧
      ∀ n ∈ pathNames (Path.absolute cwd.path destination), IsPlain n := by
  have hcwd : Path.isAbsolute cwd.path = true := rfl
  obtain ⟨a, st, hanch, ha, hbase⟩ := Path.anchored_absolute hcwd destination
  rw [hbase, FileSystem.pathNames_ofStack hanch]
  exact ⟨Path.isAbsolute_ofStack hanch ha, hanch.plain_reverse⟩

/-- Two sources, one of them reached by a link from the working directory, and a directory `out` that was
built before. -/
def workshop : Host where
  files :=
    (((((((((FileSystem.empty.put [] "lib".toList .directory).put
      ["lib".toList] "d".toList .directory).put
      ["d".toList, "lib".toList] "x.d.ts".toList (.file (.text "export * from '../y';".toList))).put
      [] "w".toList .directory).put
      ["w".toList] "own".toList .directory).put
      ["own".toList, "w".toList] "y.d.ts".toList (.file (.text []))).put
      ["w".toList] "src".toList (.link "../lib".toList)).put
      ["w".toList] "out".toList .directory).put
      ["out".toList, "w".toList] "old.d.ts".toList (.file (.text [])))
  cwd := ["w".toList]
  log := []

/-- A build of both sources, the first to a home of its own. -/
def workshopBuild (home : Text) : Settings where
  destination := "out".toList
  packages := [{ home, sourceDir := "src".toList },
    { home := "c/e".toList, sourceDir := "/w/own".toList }]

theorem workshop_link {q : Location} {t : Text} (h : workshop.files.lookup q = some (.link t)) :
    q = ["src".toList, "w".toList] := by
  have hentries : ∀ e ∈ workshop.files.entries, e.1 = ["src".toList, "w".toList] ∨ e.2 = .directory ∨
      e.2 = .file (.text []) ∨ e.2 = .file (.text "export * from '../y';".toList) := by
    decide +kernel
  by_cases hq : q = []
  · subst hq
    cases h
  · rcases hentries _ ((FileSystem.lookup_eq_some hq).1 h) with h | h | h | h
    · exact h
    all_goals cases h

theorem workshop_properLinks : workshop.files.ProperLinks := by
  intro q t hq
  obtain rfl := workshop_link hq
  have hlink : workshop.files.lookup ["src".toList, "w".toList] = some (.link "../lib".toList) := by
    decide
  rw [hlink] at hq
  cases hq
  decide

theorem workshop_spelt_src : workshop.files.Spelt workshop.cwd "src".toList
    [["src".toList, "w".toList]] ["lib".toList] := by
  have hlib : workshop.files.Spells workshop.cwd Trail.workingDirectory [Path.up, "lib".toList] []
      ⟨some 1, ["lib".toList]⟩ :=
    .up (.down (by decide) (fun t h => absurd (workshop_link h) (by decide)) (.nil _))
  have hlink : workshop.files.lookup ["src".toList, "w".toList] = some (.link "../lib".toList) := by
    decide
  have hsrc : IsName "src".toList := by decide
  have hsize : (Trail.workingDirectory.down "src".toList).path.byteSize ≤ FileSystem.maxPathBytes := by
    decide
  exact ⟨⟨some 1, ["lib".toList]⟩, rfl, .link hsrc hsize hlink hlib (.nil _)⟩

/-- From the root, what is directly in the working directory is spelt in two names. -/
theorem workshop_spelt {n path : Text} (hn : IsName n) (hne : n ≠ "src".toList)
    (habs : Path.isAbsolute path = true) (hpath : Path.segments path = [[], "w".toList, n]) :
    workshop.files.Spelt workshop.cwd path [] [n, "w".toList] := by
  refine ⟨⟨none, [n, "w".toList]⟩, rfl, ?_⟩
  rw [hpath, Trail.start, if_pos habs]
  refine .skip (.inl rfl) (.down (by decide) (fun t h => absurd (workshop_link h) (by decide))
    (.down hn (fun t h => hne ?_) (.nil _)))
  exact (List.cons.inj (workshop_link h)).1

/-- A directory `pa` with `d/x.d.ts`, and a link in the directory `out` to `other`, which has
`d/y.d.ts`. -/
def linked : Host where
  files :=
    ((((((((FileSystem.empty.put [] "pa".toList .directory).put
      ["pa".toList] "d".toList .directory).put
      ["d".toList, "pa".toList] "x.d.ts".toList (.file (.text "A".toList))).put
      [] "other".toList .directory).put
      ["other".toList] "d".toList .directory).put
      ["d".toList, "other".toList] "y.d.ts".toList (.file (.text "B".toList))).put
      [] "out".toList .directory).put
      ["out".toList] "a".toList (.link "../other".toList))
  cwd := []
  log := []

/-- The source of the second package is reached by the link, in whose place the copies of the first
package come. -/
def throughLink : Settings where
  destination := "out".toList
  packages := [{ home := "a".toList, sourceDir := "pa".toList },
    { home := "b".toList, sourceDir := "out/a/d".toList }]

/-- A directory `src` with the one declaration file `a.d.ts`, seen from the root. -/
def oneFile : Host where
  files := (FileSystem.empty.put [] "src".toList .directory).put ["src".toList] "a.d.ts".toList
    (.file (.text "export {}".toList))
  cwd := []
  log := []

end Build

end Rehome
