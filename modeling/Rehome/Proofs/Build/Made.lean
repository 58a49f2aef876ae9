import Rehome.Proofs.Build.Publication
import Rehome.Proofs.Program.Interference

/-! The declarations that a build makes, told by a run that lists them in place of their entries. Whatever is
kept while the files of one package are copied is kept until all of them are. -/

namespace Rehome

theorem Text.slashed_slashed (t : Text) : t.slashed.slashed = t.slashed := by
  rw [slashed, slashed, List.map_map]
  refine List.map_congr_left fun c _ => ?_
  by_cases hc : c = '\\'
  · simp [hc]
  · simp [hc]

namespace Build

variable {s t u v : Host} {base dir rel : Text} {p : Package} {workers : Int}

/-- A declaration that was made, and the package that it is from. -/
structure Made where
  package : Package
  declaration : Declaration
  deriving DecidableEq

namespace Made

def entry (m : Made) : Manifest.Entry := Manifest.entry m.declaration.home m.declaration.relPath

def key (m : Made) : Text := m.entry.key

/-- Where the declaration is written. -/
def path (base : Text) (m : Made) : Text :=
  Path.join (Path.join base m.package.home) m.declaration.relPath

/-- The declaration is that of a declaration file of its package that held some text. -/
structure Rehomed (m : Made) : Prop where
  isFile : Declaration.isFile m.declaration.relPath = true
  slashed : m.declaration.relPath.slashed = m.declaration.relPath
  declaration : ∃ t, m.declaration = rehomed m.package m.declaration.relPath t

end Made

/-- The files of a package, copied one after the other. -/
def copyFiles (destination : Text) (workers : Int) (p : Package) : Action (List Made) := do
  let rels ← scan p.sourceDir
  Action.log .info ("Package ".toList ++ p.home ++ ": ".toList ++ Text.ofNat rels.length ++
    " declaration files in ".toList ++ p.sourceDir)
  if workers < 1 then throw .noWorkers
  let ds ← rels.mapM (prepare p destination)
  return ds.map (Made.mk p)

/-- A build up to its manifest, with all that it makes. -/
def makeAll (cwd : Text) (c : Settings) : Action (List Made) := do
  let destination := Path.absolute cwd c.destination
  checkDestination c.packages destination c.manifestName
  cleanDestination destination
  let made ← c.packages.mapM (copyFiles destination c.workers)
  return made.flatten

namespace Concurrent

/-- The files of a package, all copied at the same time. -/
def copyFiles (destination : Text) (workers : Int) (p : Package) : Course (List Made) := do
  let rels ← announce workers p
  let ds ← Course.pool (rels.map (prepare p destination))
  return ds.map (Made.mk p)

/-- A course of a build up to its manifest, with all that it makes. -/
def makeAll (cwd : Text) (c : Settings) : Course (List Made) := do
  let destination := Path.absolute cwd c.destination
  checkDestination c.packages destination c.manifestName
  cleanDestination destination
  let made ← c.packages.mapM (copyFiles destination c.workers)
  return made.flatten

theorem copyFiles_allows (destination : Text) (workers : Int) (p : Package) :
    (copyFiles destination workers p).Allows (Build.copyFiles destination workers p) := by
  have heq : Build.copyFiles destination workers p = (do
      let rels ← announce workers p
      let ds ← rels.mapM (prepare p destination)
      return ds.map (Made.mk p)) := by
    simp only [Build.copyFiles, announce, bind_assoc]
    refine bind_congr fun rels => bind_congr fun _ => ?_
    split
    · rfl
    · simp only [pure_bind]
  rw [heq]
  apply Course.Allows.bind (.lift _)
  intro rels
  exact (Course.Allows.pool (prepare p destination) rels).bind fun ds => .pure _

/-- To copy one file after the other is one of the courses. -/
theorem makeAll_allows (cwd : Text) (c : Settings) : (makeAll cwd c).Allows (Build.makeAll cwd c) := by
  apply Course.Allows.bind (.lift _)
  intro _
  apply Course.Allows.bind (.lift _)
  intro _
  exact (Course.Allows.mapM (copyFiles_allows _ _) _).bind fun made => .pure _

theorem buildPackage_eq_map (destination : Text) (workers : Int) (p : Package) :
    buildPackage destination workers p = List.map Made.entry <$> copyFiles destination workers p := by
  simp only [buildPackage, copyFiles, map_bind, map_pure, List.map_map]
  rfl

/-- The entries of a build are those of all that it makes. -/
theorem foldlM_addPackage_makes {ps : List Package} {r : List Manifest.Entry}
    (es : List Manifest.Entry) (hes : (es.map (·.key)).Nodup)
    (h : ps.foldlM (addPackage base workers) es u (.ok r) v) :
    ∃ made, ps.mapM (copyFiles base workers) u (.ok made) v ∧
      r = es ++ made.flatten.map Made.entry ∧ (r.map (·.key)).Nodup := by
  induction ps generalizing es u with
  | nil =>
    obtain ⟨hr, rfl⟩ := h
    cases hr
    exact ⟨[], ⟨rfl, rfl⟩, by simp, hes⟩
  | cons p ps ih =>
    rw [List.foldlM_cons] at h
    obtain ⟨es', w, hstep, hrest⟩ := Course.bind_ok h
    obtain ⟨new, w', hbuild, hadd⟩ := Course.bind_ok hstep
    rw [buildPackage_eq_map] at hbuild
    obtain ⟨ms, hcopy, rfl⟩ := Course.map_ok hbuild
    obtain ⟨rfl, rfl, hnodup⟩ := addEntries_ok hadd hes
    obtain ⟨made, hmade, rfl, hr⟩ := ih _ hnodup hrest
    refine ⟨ms :: made, ?_, by simp, hr⟩
    rw [List.mapM_cons]
    exact .inl ⟨ms, w, hcopy, .inl ⟨made, v, hmade, rfl, rfl⟩⟩

/-- A build that succeeds has made what its entries tell of, under different keys, before it wrote the
manifest. -/
theorem run_makes {cwd : Text} {c : Settings} {b : Build} (h : run cwd c s (.ok b) v) :
    b.destination = Path.absolute cwd c.destination ∧
      b.manifestPath = Path.join b.destination c.manifestName ∧
      ∃ made u w, makeAll cwd c s (.ok made) u ∧ b.entries = made.map Made.entry ∧
        (made.map Made.key).Nodup ∧
        u.perform (writeText b.manifestPath (Manifest.render b.entries)) = (.ok (), w) ∧
        v.files = w.files ∧ v.cwd = w.cwd := by
  obtain ⟨hcheck, t, hclean, hfill⟩ := run_stages h
  obtain ⟨es, u, hbuild, hpublish⟩ := Course.bind_ok hfill
  obtain ⟨w, rfl, hwrite, hfiles, hcwd⟩ := publish_ok hpublish
  obtain ⟨made, hmade, rfl, hkeys⟩ := foldlM_addPackage_makes [] List.nodup_nil hbuild
  rw [List.nil_append] at hkeys hwrite ⊢
  rw [List.map_map] at hkeys
  refine ⟨rfl, rfl, made.flatten, u, w, ?_, rfl, hkeys, hwrite, hfiles, hcwd⟩
  exact .inl ⟨(), s, hcheck, .inl ⟨(), t, hclean, .inl ⟨made, u, hmade, rfl, rfl⟩⟩⟩

end Concurrent

/-! ### What is made of a file -/

theorem slashed_of_mem_declarations {u : Host} (h : rel ∈ declarations u dir) : rel.slashed = rel := by
  obtain ⟨names, -, rfl⟩ := List.mem_map.1 h
  exact Text.slashed_slashed _

/-- The declaration is that of the file at `rel` of the package, whatever text it held. -/
def RehomedOf (p : Package) (rel : Text) (d : Declaration) : Prop := ∃ t, d = rehomed p rel t

/-- A file that is copied is rehomed, whatever is done meanwhile. -/
theorem prepare_gives (p : Package) (base rel : Text) :
    (prepare p base rel).Keeps (fun _ => True) (RehomedOf p rel) := by
  have hall : ∀ {α : Type} (x : Action α), x.Keeps (fun _ => True) fun _ => True :=
    .of_answer fun _ _ _ => trivial
  rw [prepare_eq]
  exact (hall _).bind fun t _ => (hall _).bind fun _ _ => (hall _).bind fun _ _ => .pure ⟨t, rfl⟩

/-- What a package makes is told by the paths of its files. -/
theorem RehomedOf.made {d : Declaration} (h : RehomedOf p rel d) (hfile : Declaration.isFile rel = true)
    (hslashed : rel.slashed = rel) : d.relPath = rel ∧ (Made.mk p d).Rehomed := by
  obtain ⟨t, rfl⟩ := h
  have hrel : (rehomed p rel t).relPath = rel := hslashed
  refine ⟨hrel, hrel.symm ▸ hfile, ?_, t, congrArg (rehomed p · t) hrel.symm⟩
  exact (congrArg Text.slashed hrel).trans (hslashed.trans hrel.symm)

/-- The declaration is made again. -/
def Made.prepare (base : Text) (m : Made) : Action Declaration :=
  Build.prepare m.package base m.declaration.relPath

namespace Concurrent

/-- Whatever the timing is, what is given of each file is the file rehomed. -/
theorem pool_gives {rels : List Text} {ds : List Declaration}
    (h : Course.pool (rels.map (prepare p base)) u (.ok ds) v) : List.Forall₂ (RehomedOf p) rels ds := by
  have hgives : List.Forall₂ (fun rel x => Action.Keeps (fun _ => True) (RehomedOf p rel) x) rels
      (rels.map (prepare p base)) :=
    List.forall₂_map_right_iff.2 (List.forall₂_same.2 fun rel _ => prepare_gives p base rel)
  exact Course.pool_gives h hgives trivial

theorem forall₂_made {rels : List Text} {ds : List Declaration} (h : List.Forall₂ (RehomedOf p) rels ds)
    (hrels : ∀ rel ∈ rels, Declaration.isFile rel = true ∧ rel.slashed = rel) :
    ds.map (·.relPath) = rels ∧ ∀ m ∈ ds.map (Made.mk p), m.package = p ∧ m.Rehomed := by
  induction h with
  | nil => simp
  | cons hd _ ih =>
    obtain ⟨⟨hfile, hslashed⟩, hrest⟩ := List.forall_mem_cons.1 hrels
    obtain ⟨rfl, hmade⟩ := hd.made hfile hslashed
    obtain ⟨hds, hall⟩ := ih hrest
    exact ⟨by rw [List.map_cons, hds], List.forall_mem_cons.2 ⟨⟨rfl, hmade⟩, hall⟩⟩

/-- The files of a package that were copied are those of all that is made of it. -/
theorem copyFiles_ok {ms : List Made} (h : copyFiles base workers p u (.ok ms) v) :
    ∃ rels, Course.pool (ms.map (Made.prepare base)) (announced u p rels) (.ok (ms.map (·.declaration))) v ∧
      ∀ m ∈ ms, m.package = p ∧ m.Rehomed := by
  obtain ⟨rels, w, hannounce, hrest⟩ := Course.bind_ok h
  obtain ⟨hscan, -, rfl⟩ := announce_ok hannounce
  obtain ⟨-, -, hsort⟩ := scan_eq_sort hscan
  obtain ⟨ds, w', hpool, hms, rfl⟩ := Course.bind_ok hrest
  cases hms
  have hfiles : ∀ rel ∈ rels, Declaration.isFile rel = true ∧ rel.slashed = rel := fun rel hrel =>
    have hmem := Text.mem_sort.1 (hsort ▸ hrel)
    ⟨isFile_of_mem_declarations hmem, slashed_of_mem_declarations hmem⟩
  obtain ⟨rfl, hmade⟩ := forall₂_made (pool_gives hpool) hfiles
  have hds : (ds.map (Made.mk p)).map (·.declaration) = ds := by
    rw [List.map_map]
    exact List.map_id ds
  refine ⟨ds.map (·.relPath), ?_, hmade⟩
  rw [List.map_map] at hpool
  rwa [hds, List.map_map]

/-- What holds before a build makes anything, and lasts with each package whose files are copied, holds of all
that it makes. -/
theorem mapM_copyFiles_ok {I : List Made → Host → Prop} {ps : List Package} {made : List (List Made)}
    (hlog : ∀ done u l, I done u → I done { u with log := l })
    (hpool : ∀ done ms u v, (∀ m ∈ ms, m.package ∈ ps ∧ m.Rehomed) → I done u →
      Course.pool (ms.map (Made.prepare base)) u (.ok (ms.map (·.declaration))) v → I (done ++ ms) v)
    (h : ps.mapM (copyFiles base workers) u (.ok made) v) (hnil : I [] u) : I made.flatten v := by
  refine Course.mapM_ok (I := fun made u => I made.flatten u) h hnil ?_
  intro p hp done ms u v hdone hcopy
  obtain ⟨rels, hms, hmade⟩ := copyFiles_ok hcopy
  rw [List.flatten_append, List.flatten_singleton]
  refine hpool _ ms _ _ (fun m hm => ?_) (hlog _ _ _ hdone) hms
  obtain ⟨rfl, hm'⟩ := hmade m hm
  exact ⟨hp, hm'⟩

theorem makeAll_ok {cwd : Text} {c : Settings} {made : List Made} (h : makeAll cwd c s (.ok made) v) :
    s.perform (checkDestination c.packages (Path.absolute cwd c.destination) c.manifestName) =
        (.ok (), s) ∧
      ∃ t ms, s.perform (cleanDestination (Path.absolute cwd c.destination)) = (.ok (), t) ∧
        c.packages.mapM (copyFiles (Path.absolute cwd c.destination) c.workers) t (.ok ms) v ∧
        made = ms.flatten := by
  obtain ⟨⟨⟩, u, hcheck, hrest⟩ := Course.bind_ok h
  obtain rfl := checkDestination_host_eq hcheck
  obtain ⟨⟨⟩, t, hclean, hrest'⟩ := Course.bind_ok hrest
  obtain ⟨ms, v', hmap, hmade, rfl⟩ := Course.bind_ok hrest'
  exact ⟨hcheck, t, ms, hclean, hmap, Except.ok.inj hmade⟩

/-- All that a build makes is from its packages. -/
theorem rehomed_of_makeAll {cwd : Text} {c : Settings} {made : List Made} (h : makeAll cwd c s (.ok made) v) :
    ∀ m ∈ made, m.package ∈ c.packages ∧ m.Rehomed := by
  obtain ⟨-, t, ms, -, hmap, rfl⟩ := makeAll_ok h
  exact mapM_copyFiles_ok (I := fun done _ => ∀ m ∈ done, m.package ∈ c.packages ∧ m.Rehomed)
    (fun _ _ _ hdone => hdone) (fun done ms _ _ hms hdone _ => List.forall_mem_append.2 ⟨hdone, hms⟩) hmap (by simp)

end Concurrent

end Build

end Rehome
