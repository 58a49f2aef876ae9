import Rehome.Proofs.Build.Making
import Rehome.Proofs.Build.Publication
import Rehome.Proofs.Program.Repeats

/-! Builds that go on alike. On two hosts that differ in no more than directories on the way to the
destination, which one of them still has to make, a build takes the same steps. -/

namespace Rehome

open FileSystem (pathNames startOf Confined)
open Rehome.Path (IsPlain)

namespace FileSystem

variable {fs fs' : FileSystem} {D q : Location}

/-- `fs'` is `fs` with some directories more on the way to `D`. -/
def Ahead (D : Location) (fs fs' : FileSystem) : Prop :=
  ∀ q, fs'.lookup q = fs.lookup q ∨
    ¬ D <:+ q ∧ q <:+ D ∧ fs.lookup q = none ∧ fs'.lookup q = some .directory

theorem Outside.ahead (h : Outside fs D fs') (hin : ∀ q, D <:+ q → fs'.lookup q = fs.lookup q) :
    Ahead D fs fs' := by
  intro q
  by_cases hq : D <:+ q
  · exact .inl (hin q hq)
  · exact (h q hq).imp_right fun hr => ⟨hq, hr⟩

theorem Ahead.extends (h : Ahead D fs fs') : fs.Extends fs' := by
  intro q x hq
  rcases h q with he | ⟨-, -, hnone, -⟩
  · rw [he, hq]
  · rw [hq] at hnone
    cases hnone

theorem Ahead.inside (h : Ahead D fs fs') (hq : D <:+ q) : fs'.lookup q = fs.lookup q :=
  (h q).resolve_right fun hr => hr.1 hq

section Made

variable {gs gs' : FileSystem} {d : Location} (h : Ahead D fs fs')
  (hnew : ∀ q, gs.lookup q = fs.lookup q ∨ fs.lookup q = none ∧ gs.lookup q = some .directory)
include h hnew

/-- Once the directories on the way are made on one, too, it has all that the other had. -/
theorem Ahead.extends_made (hD : D <:+ d) (hd : gs.lookup d = some .directory) : fs'.Extends gs := by
  intro q x hq
  rcases h q with he | ⟨-, hqD, -, hdir⟩
  · rcases hnew q with hx | ⟨hnone, -⟩
    · rw [hx, ← he, hq]
    · rw [he, hnone] at hq
      cases hq
  · rw [hdir] at hq
    rw [← hq]
    exact lookup_directory_of_suffix hd (hqD.trans hD)

/-- Where no directory was made, a file system in between has inside what was there. -/
theorem Ahead.lookup_between (hlow : fs'.Extends gs') (hhigh : gs'.Extends gs) (hq : D <:+ q)
    (hno : gs.lookup q ≠ some .directory) : gs'.lookup q = gs.lookup q := by
  have he : gs.lookup q = fs.lookup q := (hnew q).resolve_right fun hr => hno hr.2
  rw [he]
  cases hl : fs.lookup q with
  | some x => exact hlow _ _ ((h.inside hq).trans hl)
  | none =>
    by_contra hne
    obtain ⟨x, hx⟩ := Option.ne_none_iff_exists'.1 hne
    rw [hl, hhigh _ _ hx] at he
    cases he

end Made

/-- Filling the same file on both leaves the one ahead. -/
theorem Ahead.filled {fs₁ fs₁' : FileSystem} {p : Location} {t : Text} (h : Ahead D fs fs')
    (hfill : fs.Filled p t fs₁) (hfill' : fs'.Filled p t fs₁') : Ahead D fs₁ fs₁' := by
  intro q
  by_cases hq : q = p
  · exact .inl (by rw [hq, hfill.file, hfill'.file])
  by_cases hon : q <:+ p
  · rw [lookup_of_suffix hfill.file hon hq, lookup_of_suffix hfill'.file hon hq]
    exact .inl rfl
  · rw [(hfill.changed q hq).resolve_right fun hr => hon hr.1,
      (hfill'.changed q hq).resolve_right fun hr => hon hr.1]
    exact h q

end FileSystem

namespace Build

variable {fs₀ fs₁ : FileSystem} {base path txt : Text} {D : Location} {ns : List Text} {v v' w x : Host}

/-- Where a file was opened below the base, its parent leads to a directory, straight down from the
destination. -/
theorem found_parent {q : Location} {y : Host} (hpath : Below base path ns) (hns : ∀ n ∈ ns, IsPlain n)
    (hx : Confined fs₀ base D x.files) (hcreate : x.answer (.create path) = (.ok q, y)) :
    ∃ m n, ns = m ++ [n] ∧ q = n :: (m.reverse ++ D) ∧ x.files.HasRoom (m.reverse ++ D) n ∧
      '\x00' ∉ path ∧ pathNames path = pathNames (Path.parent path) ++ [n] ∧
      Path.isAbsolute (Path.parent path) = true ∧
      x.files.find [] .look (Path.parent path) = .ok (.found (m.reverse ++ D) .directory) := by
  obtain ⟨m, n, via, d, rfl, rfl, -, hv, hroom, -⟩ :=
    Host.create_inside hx hpath.isAbsolute hpath.names hpath.ne_nil hpath.stays hcreate
  have hm : ∀ k ∈ m, IsPlain k := fun k hk => hns k (List.mem_append_left _ hk)
  obtain rfl := hx.site_below hm hv.site
  obtain ⟨hnul, hsplit, Q, hQ⟩ := Host.parent_of_create hcreate hpath.isAbsolute
  have habs := FileSystem.isAbsolute_parent hpath.isAbsolute
  have hboth := hpath.names
  rw [hsplit, ← List.append_assoc] at hboth
  obtain ⟨hparent, hn⟩ := List.append_inj' hboth rfl
  rw [List.singleton_inj.1 hn] at hsplit
  obtain ⟨hne', hsize, via', hlen, hv'⟩ := FileSystem.find_look_directory_iff.1 hQ
  rw [FileSystem.startOf_of_isAbsolute habs] at hv'
  have hv'' := hv'
  rw [hparent] at hv''
  obtain rfl := hx.site_below hm hv''.site
  refine ⟨m, n, rfl, rfl, hroom, hnul, hsplit, habs, FileSystem.find_look_directory_iff.2
    ⟨hne', hsize, via', hlen, ?_⟩⟩
  rwa [FileSystem.startOf_of_isAbsolute habs]

/-- The directories on the way to a file below the base can be made. -/
theorem attainable_parent {m : List Text} {n : Text} (hpath : Below base path ns)
    (hm : ∀ k ∈ m, IsPlain k) (hns : ns = m ++ [n]) (hnul : '\x00' ∉ path)
    (hsplit : pathNames path = pathNames (Path.parent path) ++ [n])
    (habs : Path.isAbsolute (Path.parent path) = true) (hsite : v'.files.Site [] (pathNames base) D)
    (hext : v'.files.Extends x.files)
    (hfound : x.files.find [] .look (Path.parent path) = .ok (.found (m.reverse ++ D) .directory)) :
    ∃ rest p, Attainable v'.files x.files (Path.parent path) rest p ∧
      rest.reverse ++ p = m.reverse ++ D := by
  obtain ⟨init, rest, via, p, hbase, hv, rfl, hrest, -⟩ := hsite
  have hboth := hpath.names
  rw [hsplit, hns, ← List.append_assoc] at hboth
  have hparent := (List.append_inj' hboth rfl).1
  have hD : (rest ++ m).reverse ++ p = m.reverse ++ (rest.reverse ++ p) := by simp
  refine ⟨rest ++ m, p, ⟨habs, fun hc => hnul ?_, hext, ⟨init, via, ?_, hv⟩, fun k hk => ?_, ?_⟩, hD⟩
  · exact (FileSystem.split_fst_isPrefix path).subset hc
  · rw [hparent, hbase, List.append_assoc]
  · exact (List.mem_append.1 hk).elim (hrest k) (hm k)
  · rw [hD, hfound]

/-- A file that was written on one host is written on the other, too, which then is ahead as before. -/
theorem writeText_ahead (hpath : Below base path ns) (hbase : ∀ n ∈ pathNames base, IsPlain n)
    (hns : ∀ n ∈ ns, IsPlain n) (hv : Confined fs₀ base D v.files) (hv' : Confined fs₁ base D v'.files)
    (hahead : FileSystem.Ahead D v.files v'.files)
    (h : v.perform (writeText path txt) = (.ok (), w)) :
    ∃ w', v'.perform (writeText path txt) = (.ok (), w') ∧ FileSystem.Ahead D w.files w'.files := by
  obtain ⟨⟨⟩, x, hmake, hrest⟩ := Host.perform_bind_ok h
  obtain ⟨q, y, hcreate, -⟩ := Host.perform_bind_ok hrest
  rw [Host.perform_create] at hcreate
  obtain ⟨-, hx, hgrown⟩ := makeDirectories_parent hpath (hpath.isPlain hbase hns) hv
  rw [hmake] at hx hgrown
  -- What stands in `x` and not in `v` are directories.
  have hnew : ∀ r, x.files.lookup r = v.files.lookup r ∨
      v.files.lookup r = none ∧ x.files.lookup r = some .directory := by
    intro r
    rcases hgrown with he | ⟨P, -, hgrown⟩
    · exact .inl (by rw [he])
    · exact (hgrown.changed r).imp_right And.right
  obtain ⟨m, n, rfl, rfl, hroom, hnul, hsplit, habs, hfound⟩ := found_parent hpath hns hx hcreate
  have hm : ∀ k ∈ m, IsPlain k := fun k hk => hns k (List.mem_append_left _ hk)
  have hn : IsPlain n := hns n (List.mem_append_right _ List.mem_cons_self)
  have hext : v'.files.Extends x.files :=
    hahead.extends_made hnew (List.suffix_append ..) hroom.2.1
  obtain ⟨rest, p, hatt, hp⟩ :=
    attainable_parent hpath hm rfl hnul hsplit habs hv'.site hext hfound
  obtain ⟨x', hmake', hcwd', hvx', hxx', hfound'⟩ := makeDirectories_attained hatt
  rw [hp] at hfound'
  have hlook : x'.files.lookup (n :: (m.reverse ++ D)) = x.files.lookup (n :: (m.reverse ++ D)) :=
    hahead.lookup_between hnew hvx' hxx' ((List.suffix_append ..).trans (List.suffix_cons ..))
      hroom.2.2
  have hno : ∀ t, x.files.lookup (n :: (m.reverse ++ D)) ≠ some (.link t) := fun t =>
    hx.linkFree _ t ((List.suffix_append ..).trans (List.suffix_cons ..))
  have hfind : x'.files.find x'.cwd .openFile path = x.files.find x.cwd .openFile path :=
    FileSystem.find_congr_of_found hpath.isAbsolute habs hsplit hn hxx' hfound hfound' hno hlook
  have hcreate' := Host.create_of_find_eq hcreate hfind
  obtain ⟨w', hw'⟩ : ∃ w', v'.perform (writeText path txt) = (.ok (), w') := by
    rw [writeText, Host.perform_bind, hmake']
    dsimp only
    rw [Host.perform_bind, Host.perform_create, hcreate']
    exact ⟨_, rfl⟩
  obtain ⟨-, -, hfill⟩ := writeText_ok hpath hbase hns hv h
  obtain ⟨-, -, hfill'⟩ := writeText_ok hpath hbase hns hv' hw'
  exact ⟨w', hw', hahead.filled hfill hfill'⟩

/-! ### Whole builds -/

/-- Two hosts on which builds from `s` and from `fs₁` go on: the second is ahead of the first, and has the
same working directory if one of the sources is seen from there. -/
structure Alike (s : Host) (fs₁ : FileSystem) (base : Text) (D : Location) (ps : List Package)
    (v v' : Host) : Prop where
  confined : Confined s.files base D v.files
  faded : FileSystem.Faded (Lost s D) s.cwd v.cwd
  confined' : Confined fs₁ base D v'.files
  ahead : FileSystem.Ahead D v.files v'.files
  cwd : ∀ p ∈ ps, Path.isAbsolute p.sourceDir = false → v'.cwd = v.cwd

section Alike

variable {s : Host} {ps : List Package} {p : Package} {S : Location} {names : List Text} {y : Node}

theorem Alike.since (h : Alike s fs₁ base D ps v v') : Since s D v := ⟨h.confined.toElsewhere, h.faded⟩

/-- What is found by a path from the source of a package is found on the other host, too. -/
theorem Alike.find (h : Alike s fs₁ base D ps v v') (hp : p ∈ ps)
    (hpath : Path.isAbsolute path = Path.isAbsolute p.sourceDir) {q : Location}
    (hf : v.files.find v.cwd .look path = .ok (.found q y)) :
    v'.files.find v'.cwd .look path = .ok (.found q y) := by
  have hf' := FileSystem.find_extends h.ahead.extends hf
  by_cases habs : Path.isAbsolute p.sourceDir = true
  · rw [habs] at hpath
    simpa only [FileSystem.find, hpath, if_true] using hf'
  · rwa [h.cwd p hp (by simpa using habs)]

theorem declarations_perm (h : Alike s fs₁ base D ps v v') (hp : p ∈ ps)
    (hS : Apart s D p.sourceDir S) (hdir : v.files.isDirectory v.cwd p.sourceDir = true) :
    (declarations v' p.sourceDir).Perm (declarations v p.sourceDir) := by
  obtain ⟨S', hfound⟩ := FileSystem.isDirectory_eq_true_iff.1 hdir
  obtain rfl := h.since.eq_of_found hS hfound
  have hsame : ∀ q, S' <:+ q → v'.files.lookup q = v.files.lookup q := fun q hq =>
    (h.ahead q).resolve_right fun hr => hS.below (hq.trans hr.2.1)
  exact ((FileSystem.files_perm hfound (h.find hp rfl hfound) (h.since.linkFree hS) hsame).filter _).map _

theorem scan_repeats (hp : p ∈ ps) (hS : Apart s D p.sourceDir S) :
    (scan p.sourceDir).Repeats (Alike s fs₁ base D ps) fun rels => ∀ rel ∈ rels,
      ∃ names y, Declares s.files S names y ∧ Path.ofSegments names = rel := by
  intro v v' rels w hR h
  obtain ⟨rfl, hrels, -⟩ := hR.since.scan_ok hS h
  obtain ⟨hdir, hcwd, rfl⟩ := perform_scan_iff.1 h
  have hperm := declarations_perm hR hp hS hdir
  have hdeclares : ∀ rel ∈ Text.sort (declarations w p.sourceDir), ∃ names y, Declares s.files S names y ∧
      Path.ofSegments names = rel := by
    intro rel hrel
    obtain ⟨names, y, hd, he⟩ := (hrels rel).1 hrel
    exact ⟨names, y, hd.toDeclares, he⟩
  refine ⟨hdeclares, v', perform_scan_iff.2 ⟨?_, fun hne habs => ?_, ?_⟩, hR⟩
  · obtain ⟨S', hfound⟩ := FileSystem.isDirectory_eq_true_iff.1 hdir
    exact FileSystem.isDirectory_eq_true_iff.2 ⟨S', hR.find hp rfl hfound⟩
  · rw [hR.cwd p hp habs]
    refine hR.ahead.extends _ _ (hcwd (fun hnil => hne ?_) habs)
    rw [hnil] at hperm
    exact hperm.eq_nil
  · exact (Text.sort_eq_of_perm hperm).symm

theorem read_repeats (hp : p ∈ ps) (hpath : Path.isAbsolute path = Path.isAbsolute p.sourceDir) :
    (Action.read path).Repeats (Alike s fs₁ base D ps) fun _ => True := by
  intro v v' t w hR h
  obtain ⟨rfl, hnul, hread⟩ := Host.perform_read_ok_iff.1 h
  have hread' : v'.files.read v'.cwd path = .ok (.text t) := by
    unfold FileSystem.read at hread
    split at hread
    · next q c hf =>
      cases hread
      rw [FileSystem.read, hR.find hp hpath hf]
    all_goals cases hread
  exact ⟨trivial, v', Host.perform_read_ok_iff.2 ⟨rfl, hnul, hread'⟩, hR⟩

theorem writeText_repeats (hpath : Below base path ns) (hbase : ∀ n ∈ pathNames base, IsPlain n)
    (hns : ∀ n ∈ ns, IsPlain n) :
    (writeText path txt).Repeats (Alike s fs₁ base D ps) fun _ => True := by
  intro v v' _ w hR h
  obtain ⟨w', hw', hahead⟩ := writeText_ahead hpath hbase hns hR.confined hR.confined' hR.ahead h
  obtain ⟨hcwd, hconf, -⟩ := writeText_ok hpath hbase hns hR.confined h
  obtain ⟨hcwd', hconf', -⟩ := writeText_ok hpath hbase hns hR.confined' hw'
  refine ⟨trivial, w', hw', hconf, hcwd ▸ hR.faded, hconf', hahead, fun p hp habs => ?_⟩
  rw [hcwd', hcwd, hR.cwd p hp habs]

theorem log_repeats (level : Level) (t : Text) :
    (Action.log level t).Repeats (Alike s fs₁ base D ps) fun _ => True :=
  .log (fun _ _ _ _ h => ⟨h.confined, h.faded, h.confined', h.ahead, h.cwd⟩) level t

theorem addEntries_repeats (es more : List Manifest.Entry) :
    (addEntries es more).Repeats (Alike s fs₁ base D ps) fun _ => True := by
  induction more generalizing es with
  | nil => exact .pure trivial
  | cons e more ih =>
    unfold addEntries
    split
    · exact .throw _
    · exact ih _

variable (habs : Path.isAbsolute base = true) (hbase : ∀ n ∈ pathNames base, IsPlain n)
include habs hbase

theorem prepare_repeats (hp : p ∈ ps) (hhome : ∀ n ∈ Path.segments p.home, IsPlain n)
    (hd : Declares s.files S names y) :
    (prepare p base (Path.ofSegments names)).Repeats (Alike s fs₁ base D ps) fun _ => True := by
  have hrel := Path.isAbsolute_ofSegments hd.isPlain
  refine (read_repeats hp (Path.isAbsolute_join _ hrel)).bind fun t _ => ?_
  obtain ⟨hpath, hplain⟩ := below_copy habs hhome hd
  refine (writeText_repeats hpath hbase hplain).bind fun _ _ => ?_
  exact (log_repeats _ _).bind fun _ _ => .pure trivial

theorem buildPackage_repeats {workers : Int} (hp : p ∈ ps)
    (hhome : ∀ n ∈ Path.segments p.home, IsPlain n) (hS : Apart s D p.sourceDir S) :
    (buildPackage base workers p).Repeats (Alike s fs₁ base D ps) fun _ => True := by
  refine (scan_repeats hp hS).bind fun rels hrels => ?_
  refine (log_repeats _ _).bind fun _ _ => ?_
  dsimp only
  split
  · exact Action.Repeats.bind (Q := fun _ => False) (.throw _) fun _ hf => hf.elim
  · refine Action.Repeats.bind (.mapM (S := fun _ => True) fun rel hrel => ?_) fun _ _ => .pure trivial
    obtain ⟨names, y, hd, rfl⟩ := hrels rel hrel
    exact prepare_repeats habs hbase hp hhome hd

theorem publish_repeats {c : Settings} (hname : Manifest.isPlainName c.manifestName = true)
    (entries : List Manifest.Entry) :
    (publish base c entries).Repeats (Alike s fs₁ base D ps) fun _ => True := by
  have hplain := isPlain_of_isPlainName hname
  refine (writeText_repeats (below_manifest habs hname) hbase (by simpa using hplain)).bind
    fun _ _ => ?_
  exact (log_repeats _ _).bind fun _ _ => .pure trivial

theorem fill_repeats {c : Settings} (hname : Manifest.isPlainName c.manifestName = true)
    (hhome : ∀ p ∈ c.packages, ∀ n ∈ Path.segments p.home, IsPlain n)
    (hS : ∀ p ∈ c.packages, ∃ S, Apart s D p.sourceDir S) :
    (fill base c).Repeats (Alike s fs₁ base D c.packages) fun _ => True := by
  have hpackages : (buildPackages base c.workers c.packages).Repeats
      (Alike s fs₁ base D c.packages) fun _ => True := by
    refine .foldlM [] fun p hp es => ?_
    obtain ⟨S, hS⟩ := hS p hp
    exact (buildPackage_repeats habs hbase hp (hhome p hp) hS).bind
      fun _ _ => addEntries_repeats _ _
  exact hpackages.bind fun entries _ => publish_repeats habs hbase hname entries

end Alike

end Build

end Rehome
