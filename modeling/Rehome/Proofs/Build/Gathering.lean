import Rehome.Proofs.Build.Among
import Rehome.Proofs.Build.Arrangement

/-! What a build gathers. As long as nothing that it does decides what its sources are, it finds in each of
them what was there at first, whenever it looks. -/

namespace Rehome.Build

open FileSystem (startOf Faded)
open Rehome.Path (IsPlain)

variable {s t u v : Host} {base dir : Text} {D S : Location} {F : FileSystem} {cs done new : List Copy}
  {p : Package} {ps : List Package} {copies : List (List Copy)} {workers : Int}

/-- The destination leads to `D`. Neither what stands there nor whether the directories on the way there have
been made decides which of the sources are directories, and no link on the way to these or to the destination
is too far away for the check. -/
structure Settled (s : Host) (base : Text) (D : Location) (ps : List Package) : Prop where
  destination : ∃ via, s.files.Spelt s.cwd base via D
  source : ∀ p ∈ ps, s.files.isDirectory s.cwd p.sourceDir = true →
    ∃ via S, s.files.Spelt s.cwd p.sourceDir via S
  steady : ∀ p ∈ ps, ∀ u, Since s D u →
    u.files.isDirectory u.cwd p.sourceDir = s.files.isDirectory s.cwd p.sourceDir

/-- A directory that the path leads to holds no links and no names with a backslash. -/
def Wholesome (s : Host) (dir : Text) : Prop :=
  ∀ S, s.files.find s.cwd .look dir = .ok (.found S .directory) → s.files.LinkFree S ∧
    ∀ (names : List Text) x, s.files.lookup (names.reverse ++ S) = some x → ∀ n ∈ names, '\\' ∉ n

/-- A source that is a directory, also when the destination is gone, is reached by no link inside. -/
theorem Settled.sourceAt (h : Settled s base D ps) (hp : p ∈ ps) (hsource : Wholesome s p.sourceDir)
    (hdir : s.files.isDirectory s.cwd p.sourceDir = true) : ∃ S, SourceAt s D p.sourceDir S := by
  obtain ⟨via, S, hspelt⟩ := h.source p hp hdir
  obtain ⟨S₀, hfound₀⟩ := FileSystem.isDirectory_eq_true_iff.1 hdir
  obtain rfl := hspelt.eq_of_found hfound₀
  obtain ⟨hfree, hback⟩ := hsource S₀ hfound₀
  refine ⟨S₀, ⟨via, hspelt, ?_⟩, hfree, hback⟩
  let files := (s.files.clear D).prune D
  let u : Host := { s with files, cwd := files.withoutGone s.cwd }
  obtain ⟨hgone, hsince⟩ := since_of_removed (s := s) (t := u) (D := D) rfl rfl
  have hthere := h.steady p hp u hsince
  rw [hdir] at hthere
  obtain ⟨S', hfound⟩ := FileSystem.isDirectory_eq_true_iff.1 hthere
  obtain ⟨via', -, hv⟩ := FileSystem.leads_of_find hfound
  have hfaded : Faded (Lost s D) (startOf s.cwd p.sourceDir) (startOf u.cwd p.sourceDir) := by
    unfold startOf
    split
    · exact .refl _
    · exact hsince.faded
  have hext : u.files.Extends s.files := hgone.extends fun _ _ => .inr rfl
  obtain ⟨r, ht, -⟩ := hv.traces_of_faded hext hfaded
  obtain ⟨rfl, -⟩ := ht.deterministic hspelt.traces
  intro l hl hin
  obtain ⟨target, hlink⟩ := hv.link_of_mem l hl
  exact hgone.linkFree l target hin hlink

namespace Since

/-- What is a directory once the destination is gone is one whatever is done in its place. -/
theorem isDirectory_of_removed (h : Since s D u)
    (hcwd : Path.isAbsolute dir = false → s.files.lookup s.cwd = some .directory ∧ ¬ D <:+ s.cwd)
    (hthere : ((s.files.clear D).prune D).isDirectory s.cwd dir = true) :
    u.files.isDirectory u.cwd dir = true := by
  have hext : ((s.files.clear D).prune D).Extends u.files := by
    apply (FileSystem.removed_prune_clear s.files D).extends
    intro q hq
    rcases h.elsewhere.outside q hq with he | ⟨-, hnone, -⟩
    · exact .inr he
    · exact .inl hnone
  obtain ⟨S, hfound⟩ := FileSystem.isDirectory_eq_true_iff.1 hthere
  refine FileSystem.isDirectory_eq_true_iff.2 ⟨S, ?_⟩
  have hfound' := FileSystem.find_extends hext hfound
  by_cases habs : Path.isAbsolute dir = true
  · simpa only [FileSystem.find, habs, if_true] using hfound'
  · obtain ⟨hdir, hout⟩ := hcwd (by simpa using habs)
    have hsame : s.cwd = u.cwd := h.faded.eq_of_not_lost fun hlost => hout (hlost.2 hdir)
    rwa [← hsame]

variable (h : Since s D u) (hS : Apart s D dir S) (hdir : s.files.isDirectory s.cwd dir = true)
  (hdir' : u.files.isDirectory u.cwd dir = true)
include h hS hdir hdir'

/-- The declaration files of a source are those that were there at first. -/
theorem sort_declarations : Text.sort (declarations u dir) = Text.sort (declarations s dir) := by
  obtain ⟨S₁, hfound⟩ := FileSystem.isDirectory_eq_true_iff.1 hdir
  obtain ⟨S₂, hfound'⟩ := FileSystem.isDirectory_eq_true_iff.1 hdir'
  obtain ⟨via, hspelt, -⟩ := hS.spelt
  obtain rfl := hspelt.eq_of_found hfound
  obtain rfl := h.eq_of_found hS hfound'
  apply Text.sort_eq_of_perm
  exact ((FileSystem.files_perm hfound hfound' hS.linkFree fun q hq => h.lookup_eq hS hq).filter _).map _

end Since

/-! ### Package after package -/

/-- In a build from `s`, whose destination was clean in `t`, the package `p` has the copies `new`. -/
structure Gathers (s t : Host) (D : Location) (workers : Int) (p : Package) (new : List Copy) : Prop where
  steady : ∀ u, Since s D u → u.files.isDirectory u.cwd p.sourceDir = s.files.isDirectory s.cwd p.sourceDir
  isDirectory : s.files.isDirectory s.cwd p.sourceDir = true
  apart : ∃ S, Apart s D p.sourceDir S ∧ ∀ c ∈ new, ∃ a, s.files.lookup (c.names.reverse ++ S) = some (.file a)
  package : ∀ c ∈ new, c.package = p
  plain : ∀ c ∈ new, c.Plain
  rels : new.map Copy.rel = Text.sort (declarations s p.sourceDir)
  workers : 1 ≤ workers
  workingDirectory : new ≠ [] → Path.isAbsolute p.sourceDir = false → t.files.lookup t.cwd = some .directory

/-- A working directory that is there while the build goes on was there when the destination was clean. -/
theorem Emptied.workingDirectory (h : Emptied s base D t) (hcwd : s.files.lookup s.cwd = some .directory)
    (hu : u.files.lookup t.cwd = some .directory) : t.files.lookup t.cwd = some .directory := by
  rw [h.cwd_eq hcwd] at hu ⊢
  by_cases hdir : t.files.lookup s.cwd = some .directory
  · rwa [FileSystem.withoutGone_eq_self hdir]
  · rcases hnames : s.cwd with _ | ⟨n, d⟩
    · rfl
    · rw [hnames] at hu hdir
      rw [FileSystem.withoutGone, if_neg hdir] at hu
      exact absurd rfl (FileSystem.isName_of_lookup hu [] List.mem_cons_self).1

theorem exists_map_rel {P : Copy → Prop} {rels : List Text} (h : ∀ rel ∈ rels, ∃ c : Copy, c.rel = rel ∧ P c) :
    ∃ cs : List Copy, cs.map Copy.rel = rels ∧ ∀ c ∈ cs, P c := by
  induction rels with
  | nil => exact ⟨[], rfl, by simp⟩
  | cons rel rels ih =>
    obtain ⟨⟨c, rfl, hc⟩, hrest⟩ := List.forall_mem_cons.1 h
    obtain ⟨cs, rfl, hcs⟩ := ih hrest
    exact ⟨c :: cs, rfl, List.forall_mem_cons.2 ⟨hc, hcs⟩⟩

/-- What is scanned of a source while the build goes on are files that were there at first. Each of them is
copied to a place of its own. -/
theorem Ongoing.exists_copies {rels : List Text} (h : Ongoing s t base D u) (ht : Since s D t)
    (hhome : ∀ n ∈ Path.segments p.home, IsPlain n) (hS : Apart s D p.sourceDir S)
    (hfound : t.files.find t.cwd .look p.sourceDir = .ok (.found S .directory))
    (hscan : u.perform (scan p.sourceDir) = (.ok rels, u)) :
    ∃ new : List Copy, new.map Copy.rel = rels ∧ (new.map (Copy.place D)).Nodup ∧
      (∀ c ∈ new, c.package = p ∧ ∃ a, s.files.lookup (c.names.reverse ++ S) = some (.file a)) ∧
      (∀ c ∈ new, c.Plain) ∧ ∀ c ∈ new, c.Drawn s t D := by
  obtain ⟨-, hrels, hsorted⟩ := (h.since ht).scan_ok hS hscan
  have hcopy : ∀ rel ∈ rels, ∃ c : Copy, c.rel = rel ∧
      (c.package = p ∧ ∃ a, s.files.lookup (c.names.reverse ++ S) = some (.file a)) ∧ c.Plain ∧ c.Drawn s t D := by
    intro rel hrel
    obtain ⟨names, x, hd, rfl⟩ := (hrels rel).1 hrel
    obtain ⟨a, rfl⟩ := hd.exists_file hS.linkFree
    -- A file that holds no text has a copy, too, but it is never made.
    obtain ⟨text, htext⟩ : ∃ text, ∀ text', a = .text text' → text = text' := by
      cases a with
      | text text => exact ⟨text, fun _ he => Content.text.inj he⟩
      | bytes b => exact ⟨[], fun _ he => nomatch he⟩
    exact ⟨⟨p, names, text⟩, rfl, ⟨rfl, a, hd.lookup⟩,
      ⟨hhome, hd.isPlain, hd.ne_nil, hS.noBackslash _ _ hd.lookup⟩, S, a, hS, hfound, hd.lookup, htext⟩
  obtain ⟨new, rfl, hall⟩ := exists_map_rel hcopy
  have hnodup : (new.map Copy.rel).Nodup := hsorted.imp And.right
  exact ⟨new, rfl, nodup_places (fun c hc => (hall c hc).1.1) hnodup, fun c hc => (hall c hc).1,
    fun c hc => (hall c hc).2.1, fun c hc => (hall c hc).2.2⟩

theorem exists_gathers (h : List.Forall₂ (Gathers s t D workers) ps copies) :
    ∀ c ∈ copies.flatten, ∃ new, Gathers s t D workers c.package new ∧ c ∈ new := by
  induction h with
  | nil => simp
  | @cons p new ps copies hp _ ih =>
    intro c hc
    rw [List.flatten_cons] at hc
    rcases List.mem_append.1 hc with hc | hc
    · obtain rfl := hp.package c hc
      exact ⟨new, hp, hc⟩
    · exact ih c hc

theorem nodup_places_of_keys (hne : ∀ c ∈ cs, c.names ≠ []) (hkeys : ((cs.map Copy.entry).map (·.key)).Nodup) :
    (cs.map (Copy.place D)).Nodup := by
  rw [List.map_map] at hkeys
  refine List.pairwise_map.2 ((List.pairwise_map.1 hkeys).imp_of_mem fun {c c'} hc hc' hdiff he => hdiff ?_)
  have hnames := List.reverse_injective (List.append_cancel_right he)
  show c.entry.key = c'.entry.key
  rw [Copy.key_eq (hne c hc), Copy.key_eq (hne c' hc'), hnames]

namespace Concurrent

variable (habs : Path.isAbsolute base = true) (hempty : Emptied s base D t)
include habs hempty

/-- A package that is built was there at first, with all that is copied, and its copies are made beside those
that were made before. -/
theorem buildPackage_gathers {es : List Manifest.Entry} (hhome : ∀ n ∈ Path.segments p.home, IsPlain n)
    (hsteady : ∀ u, Since s D u →
      u.files.isDirectory u.cwd p.sourceDir = s.files.isDirectory s.cwd p.sourceDir)
    (hapart : s.files.isDirectory s.cwd p.sourceDir = true → ∃ S, Apart s D p.sourceDir S)
    (hu : Ongoing s t base D u) (h : buildPackage base workers p u (.ok es) v) :
    ∃ new, Gathers s t D workers p new ∧ es = new.map Copy.entry ∧ Ongoing s t base D v ∧
      ∀ done, (∀ c ∈ done, ∀ c' ∈ new, c.place D ≠ c'.place D) → Spread t base D done done u →
        Spread t base D (done ++ new) (done ++ new) v := by
  obtain ⟨rels, ds, hscan, hworkers, hpool, rfl⟩ := buildPackage_ok h
  obtain ⟨hthere, hasked, hrels⟩ := perform_scan_iff.1 hscan
  have hsince := hu.since hempty.stage.since
  have hdir := (hsteady u hsince).symm.trans hthere
  obtain ⟨S, hS⟩ := hapart hdir
  obtain ⟨S', hfound⟩ := FileSystem.isDirectory_eq_true_iff.1 ((hsteady t hempty.stage.since).trans hdir)
  obtain rfl := hempty.stage.since.eq_of_found hS hfound
  obtain ⟨new, hnew, hnodup, hpackage, hplain, hdrawn⟩ := hu.exists_copies hempty.stage.since hhome hS hfound hscan
  rw [← hnew, map_prepare fun c hc => (hpackage c hc).1] at hpool
  obtain ⟨hv, hentries, hspread⟩ := pool_spreads hempty.stage.since habs hplain hdrawn hnodup (hu.log _) hpool
  refine ⟨new, ?_, hentries, hv, fun done hfresh hdone => hspread done hfresh hdone.log⟩
  exact
    { steady := hsteady
      isDirectory := hdir
      apart := ⟨S', hS, fun c hc => (hpackage c hc).2⟩
      package := fun c hc => (hpackage c hc).1
      plain := hplain
      rels := by rw [hnew, hrels, hsince.sort_declarations hS hdir hthere]
      workers := hworkers
      workingDirectory := by
        intro hne hrel
        have hdecl : declarations u p.sourceDir ≠ [] := by
          intro hnil
          rw [hrels, hnil] at hnew
          exact hne (List.map_eq_nil_iff.1 hnew)
        exact hempty.workingDirectory (hS.workingDirectory hrel) (hu.cwd_eq ▸ hasked hdecl hrel) }

/-- Package after package, the copies are made beside one another. -/
theorem buildPackages_gather {r : List Manifest.Entry}
    (hhome : ∀ p ∈ ps, ∀ n ∈ Path.segments p.home, IsPlain n)
    (hsteady : ∀ p ∈ ps, ∀ u, Since s D u →
      u.files.isDirectory u.cwd p.sourceDir = s.files.isDirectory s.cwd p.sourceDir)
    (hapart : ∀ p ∈ ps, s.files.isDirectory s.cwd p.sourceDir = true → ∃ S, Apart s D p.sourceDir S)
    (hu : Ongoing s t base D u) (hdone : Spread t base D done done u) (hplain : ∀ c ∈ done, c.Plain)
    (hkeys : ((done.map Copy.entry).map (·.key)).Nodup)
    (h : (ps.foldlM (fun es p => do addEntries es (← buildPackage base workers p)) (done.map Copy.entry) :
      Course (List Manifest.Entry)) u (.ok r) v) :
    ∃ copies, List.Forall₂ (Gathers s t D workers) ps copies ∧
      r = (done ++ copies.flatten).map Copy.entry ∧ (r.map (·.key)).Nodup ∧ Ongoing s t base D v ∧
      Spread t base D (done ++ copies.flatten) (done ++ copies.flatten) v := by
  induction ps generalizing done u with
  | nil =>
    obtain ⟨hr, rfl⟩ := h
    cases hr
    rw [← List.append_nil done] at hkeys hdone
    exact ⟨[], .nil, by simp, by simpa using hkeys, hu, hdone⟩
  | cons p ps ih =>
    obtain ⟨hhome₁, hhome₂⟩ := List.forall_mem_cons.1 hhome
    obtain ⟨hsteady₁, hsteady₂⟩ := List.forall_mem_cons.1 hsteady
    obtain ⟨hapart₁, hapart₂⟩ := List.forall_mem_cons.1 hapart
    rw [List.foldlM_cons] at h
    obtain ⟨es, w, hstep, hrest⟩ := Course.bind_ok h
    obtain ⟨more, w', hbuild, hadd⟩ := Course.bind_ok hstep
    obtain ⟨new, hnew, rfl, hw, hspread⟩ :=
      buildPackage_gathers habs hempty hhome₁ hsteady₁ hapart₁ hu hbuild
    obtain ⟨rfl, rfl, hnodup⟩ := addEntries_ok hadd hkeys
    rw [← List.map_append] at hnodup hrest
    have hplain' : ∀ c ∈ done ++ new, c.Plain := List.forall_mem_append.2 ⟨hplain, hnew.plain⟩
    have hplaces := nodup_places_of_keys (D := D) (fun c hc => (hplain' c hc).ne_nil) hnodup
    rw [List.map_append, List.nodup_append] at hplaces
    have hmade := hspread done (fun c hc c' hc' =>
      hplaces.2.2 _ (List.mem_map_of_mem hc) _ (List.mem_map_of_mem hc')) hdone
    obtain ⟨copies, hcopies, rfl, hkeys', hv, hall⟩ :=
      ih hhome₂ hsteady₂ hapart₂ hw hmade hplain' hnodup hrest
    rw [List.append_assoc] at hall hkeys' ⊢
    exact ⟨new :: copies, .cons hnew hcopies, rfl, hkeys', hv, hall⟩

end Concurrent

/-! ### What is left -/

/-- Also on the way there, nothing was done since `s` but to remove the destination and to work inside it. -/
theorem Amid.since (h : Amid t D cs F u) (hempty : Emptied s base D t)
    (hF : FileSystem.Elsewhere s.files D F) : Since s D u := by
  refine ⟨⟨fun q l hq hl => ?_, fun q hq => ?_⟩, h.cwd_eq.symm ▸ hempty.stage.faded⟩
  · exact hF.linkFree q l hq (h.below.keepsWays q _ hl (by simp))
  · have hplace : q ∉ cs.map (Copy.place D) := by
      intro hmem
      obtain ⟨c, -, rfl⟩ := List.mem_map.1 hmem
      exact hq (List.suffix_append ..)
    have hout := hempty.removed.outside q hq
    rcases h.changed q hplace with he | ⟨hnone, hdir⟩
    · exact .inl (he.trans hout)
    · rw [hout] at hnone
      rcases hF.outside q hq with he | ⟨hon, -, -⟩
      · rw [h.below.directory hdir, hnone] at he
        cases he
      · exact .inr ⟨hon, hnone, hdir⟩

/-- What was gathered once is there to be copied all the time. -/
theorem Gathers.offers (h : Gathers s t D workers p new) (hempty : Emptied s base D t)
    (hF : FileSystem.Elsewhere s.files D F) :
    Offers t D cs F workers p new where
  package := h.package
  workers := h.workers
  scan := by
    intro u hu
    have hsince := hu.since hempty hF
    obtain ⟨S, hS, -⟩ := h.apart
    have hthere := (h.steady u hsince).trans h.isDirectory
    have hrels := h.rels.trans (hsince.sort_declarations hS h.isDirectory hthere).symm
    refine perform_scan_iff.2 ⟨hthere, fun hne hrel => ?_, hrels⟩
    have hnew : new ≠ [] := by
      rintro rfl
      exact hne ((Text.sort_perm _).symm.trans (.of_eq hrels.symm)).eq_nil
    rw [hu.cwd_eq]
    exact hu.above.directory (h.workingDirectory hnew hrel)

/-- The copies that were gathered are a layout of what they left. -/
theorem Spread.layout_of_gathers (h : Spread t base D copies.flatten copies.flatten u)
    (hempty : Emptied s base D t) (habs : Path.isAbsolute base = true) (hu : Ongoing s t base D u)
    (hcopies : List.Forall₂ (Gathers s t D workers) ps copies)
    (hkeys : ((copies.flatten.map Copy.entry).map (·.key)).Nodup) :
    Layout t base D copies.flatten u.files := by
  have hplain : ∀ c ∈ copies.flatten, c.Plain := by
    intro c hc
    obtain ⟨new, hnew, hmem⟩ := exists_gathers hcopies c hc
    exact hnew.plain c hmem
  exact h.layout (fun c _ => hempty.lookup_inside (List.suffix_append ..) c.place_ne) hempty.site habs hplain hu
    (nodup_places_of_keys (fun c hc => (hplain c hc).ne_nil) hkeys)

end Rehome.Build
