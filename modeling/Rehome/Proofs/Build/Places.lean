import Rehome.Proofs.Build.Among
import Rehome.Proofs.Build.Made

/-! Where the files of a build end up. Below its destination a path that does not leave it leads where
its segments spell, so what is written there stays until something else is written to the same place, whatever
is written elsewhere meanwhile. -/

namespace Rehome

open FileSystem (pathNames Confined)
open Rehome.Path (IsPlain)

namespace Build

variable {fs₀ : FileSystem} {s s' t u v : Host} {base path txt : Text} {D : Location} {ns : List Text}
  {workers : Int}

/-- A file that is opened below the base stands where its path spells. -/
theorem place_of_create {p : Location} (hpath : Below base path ns) (hconf : Confined fs₀ base D u.files)
    (hcreate : u.answer (.create path) = (.ok p, v)) :
    p = Path.resolveStack true [] ns ++ D ∧ ∃ n d, p = n :: d ∧ D <:+ d ∧ u.files.HasRoom d n ∧
      v = { u with files := u.files.putFile p (.text []) } := by
  obtain ⟨init, n, via, d, rfl, rfl, hd, hv, hroom, rfl⟩ :=
    Host.create_inside hconf hpath.isAbsolute hpath.names hpath.ne_nil hpath.stays hcreate
  have hn : IsPlain n := ⟨hroom.1.1, hroom.1.2.1, hroom.1.2.2.1, hroom.1.2.2.2.1⟩
  have hinit : ∀ k ∈ init, k ≠ [] ∧ '/' ∉ k := fun k hk =>
    FileSystem.mem_pathNames (p := path) (by simp [hpath.names, hk])
  have hplace := hconf.eq_resolveStack hv hinit (hpath.stays.of_isPrefix (List.prefix_append ..))
  refine ⟨?_, n, d, rfl, hd, hroom, rfl⟩
  rw [Path.resolveStack_append, Path.resolveStack_cons, Path.push_plain _ _ hn, Path.resolveStack_nil, hplace]
  rfl

/-- A file that is written below the base, whatever else is written elsewhere, stands where its path spells.
Everything else is left. -/
theorem writeText_spares (hpath : Below base path ns) :
    (writeText path txt).Withstands (fun u => Confined fs₀ base D u.files)
      (fun u v => u.files.Spares (Path.resolveStack true [] ns ++ D) v.files)
      (fun u v => u.files.SparesAllBut (Path.resolveStack true [] ns ++ D) v.files)
      (fun r v => r = .ok () → v.files.lookup (Path.resolveStack true [] ns ++ D) = some (.file (.text txt))) s := by
  apply Action.Withstands.bind (Q := fun _ _ => True)
  · refine makeDirectories_steps (fun u => .refl _ u.files) fun q hne hpre hnames u hI => ⟨?_, .of_extends (u.extends_makeDirectory q)⟩
    exact Host.confined_makeDirectory hI (hpath.along.head
      (hpre.trans (FileSystem.split_fst_isPrefix _)) (hnames.trans (pathNames_split_fst_isPrefix _)) hne)
  · intro _ x _
    apply Action.Withstands.bind (Q := fun r v => ∀ p, r = .ok p → p = Path.resolveStack true [] ns ++ D ∧
      ∃ n d, p = n :: d ∧ D <:+ d ∧ v.files.HasRoom d n ∧ ∃ a, v.files.lookup p = some (.file a))
    · intro y _ hI
      rcases hcreate : y.answer (.create path) with ⟨e | p, z⟩
      · rcases y.answer_create path with ⟨e', he⟩ | ⟨p, -, -, he⟩ <;> rw [hcreate] at he <;> cases he
        refine ⟨hI, .refl _ y.files, ?_⟩
        rintro p ⟨⟩
      · obtain ⟨hplace, n, d, rfl, hd, hroom, rfl⟩ := place_of_create hpath hI hcreate
        obtain ⟨hfree, -⟩ := Host.lookup_of_create hcreate
        rw [← hplace]
        have hfile := FileSystem.lookup_put_self (x := .file (.text [])) hroom
        refine ⟨hI.put_inside hd (by simp), .putFile hfree, ?_⟩
        rintro _ ⟨⟩
        have hdir := (FileSystem.Outlines.putFile (c := .text []) hfree).directory hroom.2.1
        exact ⟨rfl, n, d, rfl, hd, .of_free hroom.1 hdir (.inr ⟨_, hfile⟩), _, hfile⟩
    · intro p y hp
      obtain ⟨rfl, n, d, hplace, hd, hroom, a, hfile⟩ := hp p rfl
      intro z hR hI
      have hkept := hR.2 a hfile
      rw [hplace] at hkept hR ⊢
      have hroom' := FileSystem.HasRoom.of_free hroom.1 (hR.1.directory hroom.2.1) (.inr ⟨a, hkept⟩)
      exact ⟨hI.put_inside hd (by simp), .putFile (.inr ⟨a, hkept⟩), fun _ => FileSystem.lookup_put_self hroom'⟩
    · rintro e y - ⟨⟩
  · rintro e x - ⟨⟩

/-- A file that was written below the base stands where its path spells, and everything else that was
there still is. -/
theorem writeText_at (hpath : Below base path ns) (hconf : Confined fs₀ base D s.files)
    (h : s.perform (writeText path txt) = (.ok (), s')) :
    Confined fs₀ base D s'.files ∧
      s'.files.lookup (Path.resolveStack true [] ns ++ D) = some (.file (.text txt)) ∧
      ∀ q x, q ≠ Path.resolveStack true [] ns ++ D → s.files.lookup q = some x →
        s'.files.lookup q = some x := by
  have hkept : ∀ u v : Host, u.files.SparesAllBut (Path.resolveStack true [] ns ++ D) v.files →
      (∀ q x, q ≠ Path.resolveStack true [] ns ++ D → s.files.lookup q = some x → u.files.lookup q = some x) →
      ∀ q x, q ≠ Path.resolveStack true [] ns ++ D → s.files.lookup q = some x → v.files.lookup q = some x :=
    fun u v hG hu q x hq hx => hG.2 q x hq (hu q x hq hx)
  obtain ⟨hconf', hleft, hfile⟩ :=
    (writeText_spares hpath).perform h (fun _ => .refl _ _) hconf hkept fun _ _ _ hx => hx
  exact ⟨hconf', hfile rfl, hleft⟩

namespace Made

/-- The names that the key spells below the destination, the innermost first. -/
def place (m : Made) : Location := Path.resolveStack true [] (Path.segments m.key)

/-- The file has a place below the destination. -/
def Inside (m : Made) : Prop := Inward m.package.home m.declaration.relPath

instance (m : Made) : Decidable m.Inside := inferInstanceAs (Decidable (Inward _ _))

theorem Rehomed.key_eq {m : Made} (h : m.Rehomed) : m.key = m.package.home ++ '/' :: m.declaration.relPath := by
  obtain ⟨t, hd⟩ := h.declaration
  have hhome : m.declaration.home = m.package.home := by
    rw [hd]
    rfl
  rw [← hhome]
  rfl

/-- The key tells that the file has a place below the destination. -/
theorem Rehomed.inside {m : Made} (h : m.Rehomed) (hhome : Path.isAbsolute m.package.home = false)
    (hstay : Path.StaysWithin 0 (Path.segments m.key)) (hne : [] ∉ Path.segments m.key) : m.Inside := by
  rw [h.key_eq, Path.segments_append_slash] at hstay hne
  refine ⟨hhome, ?_, hstay⟩
  by_contra hrel
  obtain ⟨q, hq⟩ := Path.isAbsolute_eq_true_iff.1 (by simpa using hrel)
  rw [hq] at hne
  exact hne (List.mem_append_right _ (Path.segments_append_slash [] q ▸ List.mem_cons_self))

theorem Rehomed.below {m : Made} (h : m.Rehomed) (habs : Path.isAbsolute base = true)
    (hin : m.Inside) :
    ∃ ns, Below base (m.path base) ns ∧ Path.resolveStack true [] ns = m.place := by
  refine ⟨_, below_join habs hin (pathNames_ne_nil_of_isFile h.isFile), ?_⟩
  rw [place, h.key_eq, Path.segments_append_slash, pathNames, pathNames, ← List.filter_append,
    Path.resolveStack_filter]

end Made

/-! ### All files -/

/-- What `x` makes has its text left at the place of `m`, whatever is written elsewhere meanwhile, and everything else
is left as it is. -/
def Made.Lands (fs₀ : FileSystem) (base : Text) (D : Location) (s : Host) (m : Made) (x : Action Declaration) : Prop :=
  x.Withstands (fun u => Confined fs₀ base D u.files)
    (fun u v => u.files.Spares (m.place ++ D) v.files) (fun u v => u.files.SparesAllBut (m.place ++ D) v.files)
    (fun r v => ∀ d, r = .ok d → v.files.lookup (m.place ++ D) = some (.file (.text d.text))) s

theorem Made.Rehomed.lands {m : Made} (hm : m.Rehomed) (habs : Path.isAbsolute base = true) (hin : m.Inside) :
    m.Lands fs₀ base D s (m.prepare base) := by
  obtain ⟨ns, hpath, hns⟩ := hm.below habs hin
  rw [Made.prepare, prepare_eq]
  apply Action.Withstands.bind (Q := fun _ _ => True)
  · intro x _ hI
    have hsame := x.answer_read_host (Path.join m.package.sourceDir m.declaration.relPath)
    exact ⟨hsame.symm ▸ hI, hsame.symm ▸ .refl _ x.files, trivial⟩
  · intro t x _
    rw [← hns]
    apply (writeText_spares hpath).bind
    · intro _ y hy z hR hI
      refine ⟨hI, .refl _ z.files, ?_⟩
      rintro _ ⟨⟩
      exact hR.2 _ (hy rfl)
    · rintro e y - _ ⟨⟩
  · rintro e x - _ ⟨⟩

section Clean

variable {ms done made : List Made} (habs : Path.isAbsolute base = true)
include habs

/-- The files of a package are left that have different places, whichever is written first, and so are those that
were there at other places. -/
theorem lookup_of_pool
    (hpool : Course.pool (ms.map (Made.prepare base)) u (.ok (ms.map (·.declaration))) v)
    (hms : ∀ m ∈ ms, m.Rehomed ∧ m.Inside) (hplaces : ((done ++ ms).map Made.place).Nodup)
    (hu : Confined fs₀ base D u.files)
    (hdone : ∀ m ∈ done, u.files.lookup (m.place ++ D) = some (.file (.text m.declaration.text))) :
    Confined fs₀ base D v.files ∧ ∀ m ∈ done ++ ms,
      v.files.lookup (m.place ++ D) = some (.file (.text m.declaration.text)) := by
  have happend : ∀ {m m' : Made}, m.place ≠ m'.place → m.place ++ D ≠ m'.place ++ D := fun hne he =>
    hne (List.append_cancel_right he)
  rw [List.map_append, List.nodup_append] at hplaces
  obtain ⟨-, hnodup, hfresh⟩ := hplaces
  have hxs : List.Forall₂ (Made.Lands fs₀ base D u) ms (ms.map (Made.prepare base)) := by
    rw [List.forall₂_map_right_iff, List.forall₂_same]
    exact fun m hm => (hms m hm).1.lands habs (hms m hm).2
  have hcompatible : Compatible (fun (m : Made) u v => u.files.Spares (m.place ++ D) v.files)
      (fun (m : Made) u v => u.files.SparesAllBut (m.place ++ D) v.files) ms := by
    refine ⟨fun _ _ => .refl _ _, fun _ _ _ _ => .trans, ?_⟩
    exact (List.pairwise_map.1 hnodup).imp fun hne _ _ =>
      ⟨fun hG => .of_sparesAllBut hG (happend hne.symm), fun hG => .of_sparesAllBut hG (happend hne)⟩
  have hkept : ∀ m ∈ ms, ∀ x y : Host, x.files.SparesAllBut (m.place ++ D) y.files →
      (∀ m ∈ done, x.files.lookup (m.place ++ D) = some (.file (.text m.declaration.text))) →
      ∀ m ∈ done, y.files.lookup (m.place ++ D) = some (.file (.text m.declaration.text)) :=
    fun m hm x y hG hx m' hm' => hG.2 _ _
      (happend (hfresh _ (List.mem_map_of_mem hm') _ (List.mem_map_of_mem hm))) (hx m' hm')
  obtain ⟨hv, hdone', ps, hyield, hall⟩ := Course.pool_withstands hpool hcompatible
    (fun m r x y hr hR d hd => hR.2 _ (hr d hd)) hxs hu hkept hdone
  have hfiles := hyield.forall₂ hall
  rw [List.forall₂_map_right_iff, List.forall₂_same] at hfiles
  exact ⟨hv, List.forall_mem_append.2 ⟨hdone', fun m hm => hfiles m hm m.declaration rfl⟩⟩

/-- As long as they have different places, all files are left that were written. -/
theorem lookup_of_makes {ps : List Package} {made : List (List Made)} (hconf : Confined fs₀ base D t.files)
    (hcopy : ps.mapM (Concurrent.copyFiles base workers) t (.ok made) u)
    (hin : ∀ m ∈ made.flatten, m.Inside) (hplaces : (made.flatten.map Made.place).Nodup) :
    Confined fs₀ base D u.files ∧ ∀ m ∈ made.flatten,
      u.files.lookup (m.place ++ D) = some (.file (.text m.declaration.text)) := by
  refine Concurrent.mapM_copyFiles_ok (I := fun done u => (∀ m ∈ done, m.Inside) →
      (done.map Made.place).Nodup → Confined fs₀ base D u.files ∧ ∀ m ∈ done,
        u.files.lookup (m.place ++ D) = some (.file (.text m.declaration.text)))
    (fun _ _ _ h => h) (fun done ms u v hms hdone hpool hin hplaces => ?_) hcopy
    (fun _ _ => ⟨hconf, by simp⟩) hin hplaces
  obtain ⟨hin, hin'⟩ := List.forall_mem_append.1 hin
  have hbefore := hplaces
  rw [List.map_append, List.nodup_append] at hbefore
  obtain ⟨hu, hfiles⟩ := hdone hin hbefore.1
  exact lookup_of_pool habs hpool (fun m hm => ⟨(hms m hm).2, hin' m hm⟩) hplaces hu hfiles

/-- Where the manifest of what a build makes is written, the destination is within reach. -/
theorem withinReach_of_makes {ps : List Package} {made : List (List Made)} {name : Text}
    (hbase : ∀ n ∈ pathNames base, IsPlain n) (hname : Manifest.isPlainName name = true)
    (hcopy : ps.mapM (Concurrent.copyFiles base workers) t (.ok made) u)
    (hin : ∀ m ∈ made.flatten, m.Inside)
    (hwrite : u.perform (writeText (Path.join base name) txt) = (.ok (), v)) : t.WithinReach base := by
  by_contra hreach
  have hI := keptBelow_unreached habs hbase hreach
  have hsame : u.files = t.files ∧ u.cwd = t.cwd := by
    refine Concurrent.mapM_copyFiles_ok
      (I := fun done u => (∀ m ∈ done, m.Inside) → u.files = t.files ∧ u.cwd = t.cwd)
      (fun _ _ _ h => h) (fun done ms u v hms hdone hpool hin => ?_) hcopy (fun _ => ⟨rfl, rfl⟩) hin
    obtain ⟨hin, hin'⟩ := List.forall_mem_append.1 hin
    have hkeeps : ∀ x ∈ ms.map (Made.prepare base),
        x.Keeps (fun u => u.files = t.files ∧ u.cwd = t.cwd) fun _ => True :=
      List.forall_mem_map.2 fun m hm => prepare_keptBelow hI habs (hin' m hm) (hms m hm).2.isFile
    exact (Course.Keeps.pool hkeeps u _ v hpool (hdone hin)).1
  have hkeeps := writeText_keptBelow (t := txt) hI (below_manifest habs hname)
  obtain ⟨p, hp⟩ := (Course.Keeps.lift hkeeps u _ v hwrite hsame).2 () rfl
  exact hp

end Clean

/-- Whatever the timing of its workers, a build that succeeds leaves all that it made and the manifest of it, each
at the place that its key spells below the destination, as long as no place leads out and all of them are
different. -/
theorem run_places {c : Settings} {b : Build} (hrun : Concurrent.run s.cwd.path c s (.ok b) s') :
    ∃ made u, Concurrent.makeAll s.cwd.path c s (.ok made) u ∧ b.entries = made.map Made.entry ∧
      (∀ m ∈ made, m.package ∈ c.packages ∧ m.Rehomed) ∧
      ((∀ m ∈ made, m.Inside) → (made.map Made.place ++ [[c.manifestName]]).Nodup →
        ∃ via D, s'.files.Leads [] (pathNames b.destination) via D ∧
          (∀ m ∈ made,
            s'.files.lookup (m.place ++ D) = some (.file (.text m.declaration.text))) ∧
          s'.files.lookup (c.manifestName :: D) =
            some (.file (.text (Manifest.render b.entries)))) := by
  obtain ⟨hdest, hmanifest, made, u, w, hmade, hentries, -, hwrite, hfiles, -⟩ := Concurrent.run_makes hrun
  refine ⟨made, u, hmade, hentries, Concurrent.rehomed_of_makeAll hmade, fun hin hplaces => ?_⟩
  obtain ⟨habs, hplain⟩ := destination_plain s.cwd c.destination
  obtain ⟨hcheck, t, ms, hclean, hcopy, rfl⟩ := Concurrent.makeAll_ok hmade
  rw [hmanifest, hdest] at hwrite
  rw [hdest]
  generalize Path.absolute s.cwd.path c.destination = base at *
  have hname := (checkDestination_ok hcheck).1
  have hcleaned := cleaned_cleanDestination (s := s) habs hplain
  rw [hclean] at hcleaned
  have hreach := withinReach_of_makes habs hplain hname hcopy hin hwrite
  obtain ⟨D, -, hstage⟩ := stage_of_cleaned hplain hcleaned hreach
  rw [List.nodup_append] at hplaces
  obtain ⟨hplaces, -, hnew⟩ := hplaces
  obtain ⟨hu, hmade'⟩ := lookup_of_makes habs hstage.confined hcopy hin hplaces
  obtain ⟨hw, hfile, hkept⟩ := writeText_at (below_manifest habs hname) hu hwrite
  have hmanifest : Path.resolveStack true [] [c.manifestName] = [c.manifestName] := by
    rw [Path.resolveStack_cons, Path.push_plain _ _ (isPlain_of_isPlainName hname),
      Path.resolveStack_nil]
  rw [hmanifest] at hfile hkept
  rw [hfiles]
  have hD : w.files.lookup D = some .directory := FileSystem.lookup_parent hfile
  obtain ⟨via, hv⟩ := hw.site.leads (by simp [hD])
  refine ⟨via, D, hv, fun m hm => hkept _ _ (fun he => ?_) (hmade' m hm), hfile⟩
  exact hnew _ (List.mem_map_of_mem hm) _ (by simp) (List.append_cancel_right he)

/-- What a build of the two sources makes. -/
def workshopMade (home : Text) : List Made :=
  let p : Package := { home, sourceDir := "src".toList }
  let q : Package := { home := "c/e".toList, sourceDir := "/w/own".toList }
  [⟨p, rehomed p "d/x.d.ts".toList "export * from '../y';".toList⟩,
    ⟨q, rehomed q "y.d.ts".toList []⟩]

theorem run_places_workshop :
    let b : Build :=
      { destination := "/w/out".toList
        manifestPath := "/w/out/dts-list.ts".toList
        entries := (workshopMade "a/../b".toList).map Made.entry }
    let s' := (workshop.perform (run workshop.cwd.path (workshopBuild "a/../b".toList))).2
    Concurrent.run workshop.cwd.path (workshopBuild "a/../b".toList) workshop (.ok b) s' ∧
      ∃ made : List Made, b.entries = made.map Made.entry ∧ (∀ m ∈ made, m.Inside) ∧
        (made.map Made.place ++ [["dts-list.ts".toList]]).Nodup ∧
        ∃ via D, s'.files.Leads [] (pathNames "/w/out".toList) via D ∧
          ∀ m ∈ made, s'.files.lookup (m.place ++ D) = some (.file (.text m.declaration.text)) := by
  intro b s'
  have hrun : (workshop.perform (run workshop.cwd.path (workshopBuild "a/../b".toList))).1 = .ok b := by
    decide +kernel
  have hcourse : Concurrent.run workshop.cwd.path (workshopBuild "a/../b".toList) workshop (.ok b) s' :=
    Concurrent.run_allows _ _ _ _ _ (Prod.ext hrun rfl)
  obtain ⟨made, u, -, hentries, hmade, hleft⟩ := run_places hcourse
  have hkeys : made.map Made.key = ["a/../b/d/x.d.ts".toList, "c/e/y.d.ts".toList] := by
    have hmap : (made.map Made.entry).map (·.key) = b.entries.map (·.key) := by rw [hentries]
    rw [List.map_map] at hmap
    exact hmap.trans (by decide +kernel)
  have hplaces : (made.map Made.place ++ [["dts-list.ts".toList]]).Nodup := by
    have hspelt : made.map Made.place =
        (made.map Made.key).map fun k => Path.resolveStack true [] (Path.segments k) := by
      rw [List.map_map]
      rfl
    rw [hspelt, hkeys]
    decide +kernel
  have hin : ∀ m ∈ made, m.Inside := by
    intro m hm
    obtain ⟨hp, hm'⟩ := hmade m hm
    have hkey : m.key ∈ made.map Made.key := List.mem_map_of_mem hm
    rw [hkeys] at hkey
    have hhomes : ∀ p ∈ (workshopBuild "a/../b".toList).packages, Path.isAbsolute p.home = false := by decide
    have hstay : ∀ k ∈ ["a/../b/d/x.d.ts".toList, "c/e/y.d.ts".toList],
        Path.StaysWithin 0 (Path.segments k) ∧ [] ∉ Path.segments k := by
      decide +kernel
    exact hm'.inside (hhomes _ hp) (hstay _ hkey).1 (hstay _ hkey).2
  obtain ⟨via, D, hv, hfiles, -⟩ := hleft hin hplaces
  exact ⟨hcourse, made, hentries, hin, hplaces, via, D, hv, hfiles⟩

/-- Two directories with a file each, of one name. -/
def rivals : Host where
  files :=
    ((((FileSystem.empty.put [] "p".toList .directory).put
      ["p".toList] "x.d.ts".toList (.file (.text "A".toList))).put
      [] "q".toList .directory).put
      ["q".toList] "x.d.ts".toList (.file (.text "B".toList)))
  cwd := []
  log := []

/-- The homes differ as texts, but not as places. -/
def rivalBuild : Settings where
  destination := "out".toList
  packages := [{ home := "a".toList, sourceDir := "p".toList },
    { home := "./a".toList, sourceDir := "q".toList }]

/-- Keys that differ as texts can spell one place, and the file that is written there last is left. -/
theorem run_loses_rival :
    ((rivals.perform (run rivals.cwd.path rivalBuild)).1.map fun b => b.entries.map (·.key)) =
        .ok ["a/x.d.ts".toList, "./a/x.d.ts".toList] ∧
      ((rivals.perform (makeAll rivals.cwd.path rivalBuild)).1.map fun made =>
          made.map fun m => (m.place, m.declaration.text)) =
        .ok [(["x.d.ts".toList, "a".toList], "declare module 'a/x' \x7b\nA\n\x7d".toList),
          (["x.d.ts".toList, "a".toList], "declare module './a/x' \x7b\nB\n\x7d".toList)] ∧
      (rivals.perform (run rivals.cwd.path rivalBuild)).2.files.lookup
          ["x.d.ts".toList, "a".toList, "out".toList] =
        some (.file (.text "declare module './a/x' \x7b\nB\n\x7d".toList)) := by
  decide +kernel

end Build

end Rehome
