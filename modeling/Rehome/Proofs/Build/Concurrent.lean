import Rehome.Proofs.Build.Source
import Rehome.Proofs.Program.Interleaving

/-! Builds whose workers copy the files of a package at the same time. Any order of the single calls is
allowed, so whatever some number of workers may come to is among the courses of a build. To copy the files
one after the other is one of them. -/

namespace Rehome.Build

variable {s t u v : Host} {base : Text} {workers : Int} {p : Package} {c : Settings} {es : List Manifest.Entry}

/-- What comes before the copies of a package: it is scanned, and somebody has to be there to copy it. -/
def announce (workers : Int) (p : Package) : Action (List Text) := do
  let rels ← scan p.sourceDir
  Action.log .info ("Package ".toList ++ p.home ++ ": ".toList ++ Text.ofNat rels.length ++
    " declaration files in ".toList ++ p.sourceDir)
  if workers < 1 then throw .noWorkers
  return rels

/-- What comes after the copies of all packages. -/
def publish (base : Text) (c : Settings) (entries : List Manifest.Entry) : Action Build := do
  let manifestPath := Path.join base c.manifestName
  writeText manifestPath (Manifest.render entries)
  Action.log .info ("Wrote manifest with ".toList ++ Text.ofNat entries.length ++
    " entries to ".toList ++ manifestPath)
  return { destination := base, manifestPath, entries }

namespace Concurrent

/-- The files of a package are all copied at the same time. -/
def buildPackage (destination : Text) (workers : Int) (p : Package) : Course (List Manifest.Entry) := do
  let rels ← announce workers p
  let ds ← Course.pool (rels.map (prepare p destination))
  return ds.map fun d => Manifest.entry d.home d.relPath

/-- One package more is built. -/
def addPackage (destination : Text) (workers : Int) (es : List Manifest.Entry) (p : Package) :
    Course (List Manifest.Entry) := do
  addEntries es (← buildPackage destination workers p)

def buildPackages (destination : Text) (workers : Int) (ps : List Package) :
    Course (List Manifest.Entry) :=
  ps.foldlM (addPackage destination workers) []

def fill (base : Text) (c : Settings) : Course Build := do
  publish base c (← buildPackages base c.workers c.packages)

def run (cwd : Text) (c : Settings) : Course Build := do
  let destination := Path.absolute cwd c.destination
  checkDestination c.packages destination c.manifestName
  cleanDestination destination
  fill destination c

theorem buildPackage_eq (base : Text) (workers : Int) (p : Package) :
    Build.buildPackage base workers p = (do
      let rels ← announce workers p
      let ds ← rels.mapM (prepare p base)
      return ds.map fun d => Manifest.entry d.home d.relPath) := by
  simp only [Build.buildPackage, announce, bind_assoc]
  refine bind_congr fun rels => bind_congr fun _ => ?_
  split
  · rfl
  · simp only [pure_bind]

theorem buildPackage_allows (base : Text) (workers : Int) (p : Package) :
    (buildPackage base workers p).Allows (Build.buildPackage base workers p) := by
  rw [buildPackage_eq]
  apply Course.Allows.bind (.lift _)
  intro rels
  exact (Course.Allows.pool (prepare p base) rels).bind fun ds => .pure _

theorem fill_allows (base : Text) (c : Settings) : (fill base c).Allows (Build.fill base c) := by
  refine Course.Allows.bind (Course.Allows.foldlM (fun es p => ?_) [] c.packages) fun es => .lift _
  exact (buildPackage_allows _ c.workers p).bind fun new => .lift _

/-- Builds that copy one file after the other are among the concurrent ones. -/
theorem run_allows (cwd : Text) (c : Settings) : (run cwd c).Allows (Build.run cwd c) := by
  rw [run_eq]
  apply Course.Allows.bind (.lift _)
  intro _
  exact (Course.Allows.lift _).bind fun _ => fill_allows _ c

end Concurrent

/-! ### The stages of a course -/

/-- The host once the copies of a package were announced. -/
def announced (s : Host) (p : Package) (rels : List Text) : Host :=
  { s with log := s.log ++ [⟨.info, "Package ".toList ++ p.home ++ ": ".toList ++ Text.ofNat rels.length ++
    " declaration files in ".toList ++ p.sourceDir⟩] }

theorem perform_announce {rels : List Text} (hscan : s.perform (scan p.sourceDir) = (.ok rels, s)) :
    s.perform (announce workers p) =
      (if workers < 1 then .error .noWorkers else .ok rels, announced s p rels) := by
  rw [announce, Host.perform_bind, hscan]
  dsimp only
  rw [Host.perform_bind, Host.perform_log]
  dsimp only
  split
  · rfl
  · rfl

/-- A course of a package is one of its files, once these are announced. -/
theorem Concurrent.of_buildPackage {rels : List Text} {r : Except Fault (List Manifest.Entry)}
    (hscan : s.perform (scan p.sourceDir) = (.ok rels, s)) (hworkers : 1 ≤ workers)
    (h : Concurrent.buildPackage base workers p s r t) :
    ∃ r', Course.pool (rels.map (Build.prepare p base)) (announced s p rels) r' t ∧
      r = r'.map fun ds => ds.map fun d => Manifest.entry d.home d.relPath := by
  have hannounce : s.perform (announce workers p) = _ := perform_announce hscan
  rw [if_neg (by omega)] at hannounce
  have hrest := Course.bind_lift hannounce h
  rcases Course.bind_iff.1 hrest with ⟨ds, v, hpool, rfl, rfl⟩ | ⟨e, hpool, rfl⟩
  · exact ⟨.ok ds, hpool, rfl⟩
  · exact ⟨.error e, hpool, rfl⟩

/-- A package that is announced was scanned, and somebody was there to copy its files. -/
theorem announce_ok {rels : List Text} (h : s.perform (announce workers p) = (.ok rels, t)) :
    s.perform (scan p.sourceDir) = (.ok rels, s) ∧ 1 ≤ workers ∧ t = announced s p rels := by
  obtain ⟨rels', u, hscan, -⟩ := Host.perform_bind_ok h
  obtain ⟨rfl, -, -⟩ := scan_eq_sort hscan
  rw [perform_announce hscan] at h
  split at h
  · cases h
  next hworkers =>
  cases h
  exact ⟨hscan, by omega, rfl⟩

/-- A package that is built was scanned, somebody was there to copy its files, and all of them were copied. -/
theorem Concurrent.buildPackage_ok (h : Concurrent.buildPackage base workers p s (.ok es) t) :
    ∃ rels ds, s.perform (scan p.sourceDir) = (.ok rels, s) ∧ 1 ≤ workers ∧
      Course.pool (rels.map (Build.prepare p base)) (announced s p rels) (.ok ds) t ∧
      es = ds.map fun d => Manifest.entry d.home d.relPath := by
  obtain ⟨rels, u, hannounce, hrest⟩ := Course.bind_ok h
  obtain ⟨hscan, hworkers, rfl⟩ := announce_ok hannounce
  obtain ⟨ds, v, hpool, hes, rfl⟩ := Course.bind_ok hrest
  exact ⟨rels, ds, hscan, hworkers, hpool, Except.ok.inj hes⟩

/-- A manifest that was published was written to its place. -/
theorem publish_ok {es : List Manifest.Entry} {b : Build} (h : u.perform (publish base c es) = (.ok b, v)) :
    ∃ w, b = ⟨base, Path.join base c.manifestName, es⟩ ∧
      u.perform (writeText (Path.join base c.manifestName) (Manifest.render es)) = (.ok (), w) ∧
      v.files = w.files ∧ v.cwd = w.cwd := by
  obtain ⟨⟨⟩, w, hwrite, hlog⟩ := Host.perform_bind_ok h
  rw [Host.perform_bind, Host.perform_log] at hlog
  cases hlog
  exact ⟨w, rfl, hwrite, rfl, rfl⟩

/-- A build that ends well passed the check, and its destination was filled once it was clean. -/
theorem Concurrent.run_stages {cwd : Text} {b : Build} (h : Concurrent.run cwd c s (.ok b) v) :
    s.perform (checkDestination c.packages (Path.absolute cwd c.destination) c.manifestName) = (.ok (), s) ∧
      ∃ t, s.perform (cleanDestination (Path.absolute cwd c.destination)) = (.ok (), t) ∧
        Concurrent.fill (Path.absolute cwd c.destination) c t (.ok b) v := by
  obtain ⟨⟨⟩, u, hcheck, hrest⟩ := Course.bind_ok h
  obtain rfl := checkDestination_host_eq hcheck
  obtain ⟨⟨⟩, t, hclean, hfill⟩ := Course.bind_ok hrest
  exact ⟨hcheck, t, hclean, hfill⟩

/-! ### What all courses keep -/

section Keeps

variable {I : Host → Prop}

theorem announce_keeps (hlog : ∀ s l, I s → I { s with log := l }) (workers : Int) (p : Package) :
    (announce workers p).Keeps I fun rels =>
      ∃ u, I u ∧ ∀ rel ∈ rels, rel ∈ declarations u p.sourceDir := by
  apply (scan_keeps p.sourceDir).bind
  rintro rels ⟨u, hu, hrels⟩
  apply (Action.Keeps.log hlog _ _).bind
  intro _ _
  dsimp only
  split
  · exact Action.Keeps.bind (Q := fun _ => False) (.throw _) fun _ hf => hf.elim
  · exact .pure ⟨u, hu, hrels⟩

theorem publish_keeps {Q : Location → Prop} (hI : KeptBelow base I Q) (habs : Path.isAbsolute base = true)
    (hname : Manifest.isPlainName c.manifestName = true) (es : List Manifest.Entry) :
    (publish base c es).Keeps I fun _ => ∃ p, Q p := by
  apply (writeText_keptBelow hI (below_manifest habs hname)).bind
  intro _ hQ
  exact (Action.Keeps.log hI.log _ _).bind fun _ _ => .pure hQ

namespace Concurrent

theorem addPackage_eq (base : Text) (workers : Int) (es : List Manifest.Entry) (p : Package) :
    addPackage base workers es p = (do
      let rels ← announce workers p
      let ds ← Course.pool (rels.map (prepare p base))
      addEntries es (ds.map fun d => Manifest.entry d.home d.relPath)) := by
  simp only [addPackage, buildPackage, bind_assoc, pure_bind]

theorem copies_keeps {es : List Manifest.Entry} {rels : List Text}
    (hprepare : ∀ rel ∈ rels, (prepare p base rel).Keeps I fun _ => True) :
    (do
      let ds ← Course.pool (rels.map (prepare p base))
      addEntries es (ds.map fun d => Manifest.entry d.home d.relPath) : Course _).Keeps I
        fun _ => True :=
  (Course.Keeps.pool (List.forall_mem_map.2 hprepare)).bind fun _ _ => .lift (addEntries_keeps es _)

/-- What is kept by each copy of a file that is found is kept by all courses of a package. -/
theorem addPackage_keeps {es : List Manifest.Entry} {r : Except Fault (List Manifest.Entry)}
    (hlog : ∀ s l, I s → I { s with log := l })
    (hprepare : ∀ rel ∈ declarations u p.sourceDir, (prepare p base rel).Keeps I fun _ => True)
    (h : addPackage base workers es p u r v) (hu : I u) : I v := by
  rw [addPackage_eq] at h
  have hkept := fun r w hw => (Course.Keeps.lift (announce_keeps hlog workers p) u r w hw hu).1
  rcases Course.bind_iff.1 h with ⟨rels, w, hw, hrest⟩ | ⟨e, hv, -⟩
  swap
  · exact hkept _ v hv
  -- Nothing has happened yet to what the scan looks at.
  have hscanned : (announce workers p).Keeps (fun x => x.files = u.files ∧ x.cwd = u.cwd) fun rels =>
      ∃ x : Host, (x.files = u.files ∧ x.cwd = u.cwd) ∧ ∀ rel ∈ rels, rel ∈ declarations x p.sourceDir :=
    announce_keeps (fun _ _ hx => hx) workers p
  obtain ⟨x, ⟨hfiles, hcwd⟩, hrels⟩ := (Course.Keeps.lift hscanned u _ w hw ⟨rfl, rfl⟩).2 rels rfl
  rw [declarations, hfiles, hcwd] at hrels
  exact (copies_keeps (fun rel hrel => hprepare rel (hrels rel hrel)) w r v hrest (hkept _ w hw)).1

/-- What is kept by each copy of a file that may be scanned is kept by all courses of a build up to its
manifest. -/
theorem buildPackages_keeps {ps : List Package} (hlog : ∀ s l, I s → I { s with log := l })
    (hprepare : ∀ p ∈ ps, ∀ u, I u → ∀ rel ∈ declarations u p.sourceDir,
      (prepare p base rel).Keeps I fun _ => True) :
    (buildPackages base workers ps).Keeps I fun _ => True := by
  apply Course.Keeps.foldlM trivial
  intro p hp es _ u r v h hu
  exact ⟨addPackage_keeps hlog (hprepare p hp u hu) h hu, fun _ _ => trivial⟩

section Unreached

variable (habs : Path.isAbsolute base = true) (hname : Manifest.isPlainName c.manifestName = true)
  (hplain : ∀ n ∈ FileSystem.pathNames base, Path.IsPlain n)
  (hinward : ∀ p ∈ c.packages, ∀ rel ∈ declarations t p.sourceDir, Inward p.home rel)
include habs hname hplain hinward

/-- A destination that is out of reach is not filled in any course, and nothing else is done. -/
theorem fill_keeps_unreached (hreach : ¬ t.WithinReach base) :
    (fill base c).Keeps (fun u => u.files = t.files ∧ u.cwd = t.cwd) fun _ => False := by
  have hI := keptBelow_unreached habs hplain hreach
  have hprepare : ∀ p ∈ c.packages, ∀ u : Host, u.files = t.files ∧ u.cwd = t.cwd →
      ∀ rel ∈ declarations u p.sourceDir, (prepare p base rel).Keeps
        (fun u => u.files = t.files ∧ u.cwd = t.cwd) fun _ => True := by
    intro p hp u hu rel hrel
    have hfile := isFile_of_mem_declarations hrel
    rw [declarations, hu.1, hu.2] at hrel
    exact prepare_keptBelow hI habs (hinward p hp rel hrel) hfile
  apply (buildPackages_keeps hI.log hprepare).bind
  intro es _
  exact .lift ((publish_keeps hI habs hname es).mono fun _ h => h.elim fun _ hf => hf)

/-- A destination that was filled in some course was within reach. -/
theorem withinReach_of_fill {b : Build} {v : Host} (h : fill base c t (.ok b) v) : t.WithinReach base := by
  by_contra hreach
  exact (fill_keeps_unreached habs hname hplain hinward hreach t _ v h ⟨rfl, rfl⟩).2 b rfl

end Unreached

end Concurrent

end Keeps

end Rehome.Build
