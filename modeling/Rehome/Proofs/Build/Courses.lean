import Rehome.Proofs.Build.Gathering

/-! Builds whose sources stand apart from their destination, whatever the timing of their workers. Each package is
built on what those before it have left, and if it is built in one course it is in any other, to the same end. So
what holds of a build that copies one file after the other holds of all courses. -/

namespace Rehome

/-- The same stands at every place, and the working directory is the same. -/
structure Host.Same (u v : Host) : Prop where
  cwd : v.cwd = u.cwd
  lookup : ∀ q, v.files.lookup q = u.files.lookup q

namespace Host.Same

variable {u v : Host}

theorem refl (u : Host) : u.Same u := ⟨rfl, fun _ => rfl⟩

theorem symm (h : u.Same v) : v.Same u := ⟨h.cwd.symm, fun q => (h.lookup q).symm⟩

end Host.Same

namespace Build

open FileSystem (pathNames Confined)
open Rehome.Path (IsPlain)

variable {s s' t u u' v v' w : Host} {base : Text} {D : Location} {c : Settings} {b : Build} {workers workers' : Int}
  {p : Package} {ps : List Package} {es : List Manifest.Entry} {done new : List Copy} {outs : List Output}

/-! ### Hosts on which the same stands -/

theorem Stage.same (h : Stage s base D outs u) (hsame : u.Same v) : Stage s base D outs v := by
  refine ⟨⟨⟨fun q l hq hl => ?_, fun q hq => ?_⟩, h.confined.site.congr hsame.lookup⟩, hsame.cwd ▸ h.faded,
    fun before o after he hafter => ?_, fun q hq hne hl => ?_⟩
  · exact h.confined.linkFree q l hq ((hsame.lookup q).symm.trans hl)
  · rw [hsame.lookup]
    exact h.confined.outside q hq
  · rw [hsame.lookup]
    exact h.file before o after he hafter
  · rw [hsame.lookup] at hl
    exact h.inside q hq hne hl

/-- Each of two hosts on which the same stands is ahead of the other. -/
theorem Stage.alike (h : Stage s base D outs u) (hsame : u.Same v) : Alike s s.files base D ps u v :=
  ⟨h.confined, h.faded, (h.same hsame).confined, fun q => .inl (hsame.lookup q), fun _ _ _ => hsame.cwd⟩

theorem lookup_eq_of_ahead {fs fs' : FileSystem} (h : FileSystem.Ahead D fs fs') (h' : FileSystem.Ahead D fs' fs)
    (q : Location) : fs'.lookup q = fs.lookup q := by
  rcases h q with he | ⟨-, -, hnone, hdir⟩
  · exact he
  · rcases h' q with he | ⟨-, -, hnone', -⟩
    · exact he.symm
    · rw [hdir] at hnone'
      cases hnone'

/-- What goes on alike on hosts that are alike comes to the same where the same stands. -/
theorem Stage.perform_same {α : Type} {x : Action α} {a : α} {Q : α → Prop} (h : Stage s base D outs u)
    (hx : x.Repeats (Alike s s.files base D ps) Q) (hsame : u.Same u') (hrun : u.perform x = (.ok a, v)) :
    ∃ v', u'.perform x = (.ok a, v') ∧ ∀ q, v'.files.lookup q = v.files.lookup q := by
  obtain ⟨-, v', hrun', hv⟩ := hx u u' a v (h.alike hsame) hrun
  obtain ⟨-, w, hagain, hv'⟩ := hx u' u a v' ((h.same hsame).alike hsame.symm) hrun'
  rw [hrun] at hagain
  cases hagain
  exact ⟨v', hrun', lookup_eq_of_ahead hv.ahead hv'.ahead⟩

/-! ### One package more -/

/-- Where keys are different and the new copies were made beside those that were there, their places had been
free. -/
theorem Stage.free (h : Stage s base D (done.map Copy.output) u) (habove : u.files.Outlines v.files)
    (hplaces : ((done ++ new).map (Copy.place D)).Nodup)
    (hfile : ∀ c ∈ new, v.files.lookup (c.place D) = some (.file (.text c.output.text))) :
    ∀ c ∈ new, u.files.lookup (c.place D) = none := by
  rw [List.map_append, List.nodup_append] at hplaces
  obtain ⟨hdone, -, hfresh⟩ := hplaces
  have hnames : ((done.map Copy.output).map Output.names).Nodup := by
    rw [List.map_map]
    refine List.Nodup.of_map (fun ns => ns.reverse ++ D) ?_
    rwa [List.map_map]
  intro c hc
  by_contra hthere
  obtain ⟨o, ho, hon⟩ := h.inside _ (List.suffix_append ..) c.place_ne hthere
  have hold := h.file_of_nodup hnames o ho
  obtain ⟨c', hc', rfl⟩ := List.mem_map.1 ho
  have hne : c.place D ≠ c'.place D := fun he =>
    hfresh _ (List.mem_map_of_mem hc') _ (List.mem_map_of_mem hc) he.symm
  -- A directory on the way to another copy stays one.
  have hdir := habove.directory (FileSystem.lookup_of_suffix hold hon hne)
  cases (hfile c hc).symm.trans hdir

section Apart

variable (habs : Path.isAbsolute base = true)
include habs

/-- The copies of a package that is built in some course are laid out. -/
theorem Concurrent.exists_layout (h : Stage s base D (done.map Copy.output) u)
    (hhome : ∀ n ∈ Path.segments p.home, IsPlain n) {S : Location} (hS : Apart s D p.sourceDir S)
    (hdone : ∀ c ∈ done, c.names ≠ []) (hcourse : Concurrent.buildPackage base workers p u (.ok es) v)
    (hkeys : ((done.map Copy.entry ++ es).map (·.key)).Nodup) :
    ∃ new, (∀ c ∈ new, c.package = p) ∧ u.perform (scan p.sourceDir) = (.ok (new.map Copy.rel), u) ∧ 1 ≤ workers ∧
      es = new.map Copy.entry ∧ v.cwd = u.cwd ∧ Layout u base D new v.files := by
  obtain ⟨rels, ds, hscan, hworkers, hpool, rfl⟩ := Concurrent.buildPackage_ok hcourse
  obtain ⟨hthere, -, -⟩ := perform_scan_iff.1 hscan
  obtain ⟨S', hfound⟩ := FileSystem.isDirectory_eq_true_iff.1 hthere
  obtain rfl := h.since.eq_of_found hS hfound
  have hu : Ongoing s u base D u := ⟨rfl, .refl _, h.confined⟩
  obtain ⟨new, rfl, hnodup, hpackage, hplain, hdrawn⟩ := hu.exists_copies h.since hhome hS hfound hscan
  rw [map_prepare fun c hc => (hpackage c hc).1] at hpool
  obtain ⟨hv, hentries, hspread⟩ := pool_spreads h.since habs hplain hdrawn hnodup (hu.log _) hpool
  have hmade := hspread [] (by simp) (Spread.nil u base D).log
  rw [List.nil_append] at hmade
  rw [hentries, ← List.map_append] at hkeys
  have hplaces := nodup_places_of_keys (D := D)
    (fun c hc => (List.mem_append.1 hc).elim (hdone c) fun hc => (hplain c hc).ne_nil) hkeys
  have hfree := h.free hv.above hplaces fun c hc => (hmade.made c hc).file
  exact ⟨new, fun c hc => (hpackage c hc).1, hscan, hworkers, hentries, hv.cwd_eq,
    hmade.layout hfree h.confined.site habs hplain hv hnodup⟩

variable (hbase : ∀ n ∈ pathNames base, IsPlain n)
include hbase

/-- A package that is built in one course is built in any other, however many workers there are and also where
only the same stands: with the same entries, and to the same end. -/
theorem Concurrent.buildPackage_agrees {r : Except Fault (List Manifest.Entry)}
    (h : Stage s base D (done.map Copy.output) u) (hsame : u.Same u')
    (hhome : ∀ n ∈ Path.segments p.home, IsPlain n) {S : Location} (hS : Apart s D p.sourceDir S)
    (hdone : ∀ c ∈ done, c.names ≠ []) (hcourse : Concurrent.buildPackage base workers p u (.ok es) v)
    (hkeys : ((done.map Copy.entry ++ es).map (·.key)).Nodup) (hworkers : workers' = workers ∨ 1 ≤ workers')
    (hcourse' : Concurrent.buildPackage base workers' p u' r v') :
    r = .ok es ∧ v.Same v' ∧ ∃ new, Copies s.files S p new ∧ es = new.map Copy.entry ∧
      Stage s base D ((done ++ new).map Copy.output) v := by
  obtain ⟨new, hpackage, hscan, hmany, rfl, hcwd, hlayout⟩ :=
    exists_layout habs h hhome hS hdone hcourse hkeys
  have hp : p ∈ [p] := List.mem_singleton_self p
  -- To copy one file after the other is a course, and it comes to the same.
  obtain ⟨r₀, v₀, hbuild⟩ : ∃ r₀ v₀, u.perform (Build.buildPackage base workers p) = (r₀, v₀) := ⟨_, _, rfl⟩
  obtain ⟨rfl, hcwd₀, hlookup₀⟩ :=
    hlayout.buildPackage hpackage hscan hmany (buildPackage_allows base workers p u _ _ hbuild)
  obtain ⟨cs, hcs, hentries, hstage⟩ := Build.buildPackage_ok habs hbase hhome hS h hbuild
  have hv : v₀.Same v := ⟨hcwd.trans hcwd₀.symm, fun q => (hlookup₀ q).symm⟩
  obtain ⟨w, hbuild', hlookup⟩ := h.perform_same (buildPackage_repeats habs hbase hp hhome hS) hsame hbuild
  obtain ⟨new', hpackage', hscan', -, hentries', -, hlayout'⟩ := exists_layout habs (h.same hsame) hhome hS hdone
    (buildPackage_allows base workers p u' _ _ hbuild') hkeys
  obtain ⟨rfl, hcwd', hlookup'⟩ :=
    hlayout'.buildPackage hpackage' hscan' (hworkers.elim (fun he => he ▸ hmany) id) hcourse'
  refine ⟨by rw [hentries'], ⟨?_, fun q => ?_⟩, cs, hcs, hentries, ?_⟩
  · rw [hcwd', hsame.cwd, hcwd]
  · rw [hlookup' q, hlookup q, hlookup₀ q]
  · rw [List.map_append]
    exact hstage.same hv

/-! ### Package after package -/

/-- Packages that are built in one course are built in any other. -/
theorem Concurrent.foldlM_addPackage_agrees {r : Except Fault (List Manifest.Entry)}
    (hhome : ∀ p ∈ ps, ∀ n ∈ Path.segments p.home, IsPlain n)
    (hS : ∀ p ∈ ps, ∃ S, Apart s D p.sourceDir S) (hworkers : workers' = workers ∨ 1 ≤ workers')
    (h : Stage s base D (done.map Copy.output) u) (hsame : u.Same u') (hdone : ∀ c ∈ done, c.names ≠ [])
    (hkeys : ((done.map Copy.entry).map (·.key)).Nodup)
    (hcourse : ps.foldlM (addPackage base workers) (done.map Copy.entry) u (.ok es) v)
    (hcourse' : ps.foldlM (addPackage base workers') (done.map Copy.entry) u' r v') :
    r = .ok es ∧ v.Same v' ∧ ∃ copies, List.Forall₂ (CopiesOf s D) ps copies ∧
      es = (done ++ copies.flatten).map Copy.entry ∧ (es.map (·.key)).Nodup ∧
      Stage s base D ((done ++ copies.flatten).map Copy.output) v := by
  induction ps generalizing done u u' with
  | nil =>
    obtain ⟨hes, rfl⟩ := hcourse
    obtain ⟨rfl, rfl⟩ := hcourse'
    cases hes
    exact ⟨rfl, hsame, [], .nil, by simp, hkeys, by simpa using h⟩
  | cons p ps ih =>
    obtain ⟨hhome₁, hhome₂⟩ := List.forall_mem_cons.1 hhome
    obtain ⟨⟨S, hS₁⟩, hS₂⟩ := List.forall_mem_cons.1 hS
    rw [List.foldlM_cons] at hcourse hcourse'
    obtain ⟨es', w, hstep, hrest⟩ := Course.bind_ok hcourse
    obtain ⟨more, x, hbuild, hadd⟩ := Course.bind_ok hstep
    have hadd : x.perform (addEntries (done.map Copy.entry) more) = (.ok es', w) := hadd
    obtain ⟨rfl, rfl, hnodup⟩ := addEntries_ok hadd hkeys
    obtain ⟨-, -, new, hnew, rfl, hw⟩ :=
      buildPackage_agrees habs hbase h (.refl u) hhome₁ hS₁ hdone hbuild hnodup (.inl rfl) hbuild
    have hstep' : ∀ r y, addPackage base workers' (done.map Copy.entry) p u' r y →
        r = .ok (done.map Copy.entry ++ new.map Copy.entry) ∧ w.Same y := by
      intro r y hr
      obtain ⟨z, hz, hr⟩ := Course.bind_of_ok (P := w.Same) (fun r z hz =>
        (buildPackage_agrees habs hbase h hsame hhome₁ hS₁ hdone hbuild hnodup hworkers hz).imp_right And.left) hr
      have hr : z.perform (addEntries (done.map Copy.entry) (new.map Copy.entry)) = (r, y) := hr
      rw [perform_addEntries hnodup] at hr
      cases hr
      exact ⟨rfl, hz⟩
    obtain ⟨y, hy, hrest'⟩ := Course.bind_of_ok hstep' hcourse'
    rw [← List.map_append] at hnodup hrest hrest'
    have hnames : ∀ c ∈ done ++ new, c.names ≠ [] := List.forall_mem_append.2 ⟨hdone, fun c hc =>
      ((hnew.mem c).1 hc).2.ne_nil⟩
    obtain ⟨rfl, hv, copies, hcopies, rfl, hkeys', hstage⟩ :=
      ih hhome₂ hS₂ hw hy hnames hnodup hrest hrest'
    rw [List.append_assoc] at hkeys' hstage ⊢
    exact ⟨rfl, hv, new :: copies, .cons ⟨S, hS₁.toSourceAt, hnew⟩ hcopies, rfl, hkeys', hstage⟩

/-! ### Whole builds -/

/-- What a build did before it wrote the manifest. -/
theorem Concurrent.fill_copies (hhome : ∀ p ∈ c.packages, ∀ n ∈ Path.segments p.home, IsPlain n)
    (hS : ∀ p ∈ c.packages, ∃ S, Apart s D p.sourceDir S) (h : Stage s base D [] t)
    (hfill : fill base c t (.ok b) v) :
    ∃ copies u w, List.Forall₂ (CopiesOf s D) c.packages copies ∧
      b = ⟨base, Path.join base c.manifestName, copies.flatten.map Copy.entry⟩ ∧
      (b.entries.map (·.key)).Nodup ∧ Stage s base D (copies.flatten.map Copy.output) u ∧
      u.perform (writeText (Path.join base c.manifestName) (Manifest.render b.entries)) = (.ok (), w) ∧
      v.files = w.files := by
  obtain ⟨es, u, hbuild, hpublish⟩ := Course.bind_ok hfill
  have hempty : Stage s base D (([] : List Copy).map Copy.output) t := h
  obtain ⟨-, -, copies, hcopies, rfl, hkeys, hstage⟩ := foldlM_addPackage_agrees habs hbase hhome hS (.inl rfl)
    hempty (.refl t) (by simp) List.nodup_nil hbuild hbuild
  obtain ⟨w, rfl, hwrite, hfiles, -⟩ := publish_ok hpublish
  exact ⟨copies, u, w, hcopies, rfl, hkeys, hstage, hwrite, hfiles⟩

variable (hname : Manifest.isPlainName c.manifestName = true)
include hname

/-- The manifest is published also where only the same stands. -/
theorem perform_publish_same (h : Stage s base D outs u) (hsame : u.Same u')
    (hpublish : u.perform (publish base c es) = (.ok b, v)) :
    ∃ v', u'.perform (publish base c es) = (.ok b, v') ∧ v.Same v' := by
  have hpath := below_manifest habs hname
  have hplain : ∀ n ∈ [c.manifestName], IsPlain n := List.forall_mem_singleton.2 (isPlain_of_isPlainName hname)
  have hrepeats : (publish base c es).Repeats (Alike s s.files base D []) fun _ => True :=
    publish_repeats habs hbase hname es
  obtain ⟨v', hpublish', hlookup⟩ := h.perform_same hrepeats hsame hpublish
  obtain ⟨w, -, hwrite, -, hcwd⟩ := publish_ok hpublish
  obtain ⟨w', -, hwrite', -, hcwd'⟩ := publish_ok hpublish'
  obtain ⟨hw, -⟩ := writeText_ok hpath hbase hplain h.confined hwrite
  obtain ⟨hw', -⟩ := writeText_ok hpath hbase hplain (h.same hsame).confined hwrite'
  exact ⟨v', hpublish', by rw [hcwd', hw', hsame.cwd, ← hw, hcwd], hlookup⟩

variable (hhome : ∀ p ∈ c.packages, ∀ n ∈ Path.segments p.home, IsPlain n)
  (hS : ∀ p ∈ c.packages, ∃ S, Apart s D p.sourceDir S)
include hhome hS

/-- A destination that is filled in one course is filled in any other, to the same end. -/
theorem Concurrent.fill_agrees {r : Except Fault Build} (hworkers : workers = c.workers ∨ 1 ≤ workers)
    (h : Stage s base D [] t) (hfill : fill base c t (.ok b) v)
    (hcourse : fill base { c with workers } t r v') : r = .ok b ∧ v.Same v' := by
  obtain ⟨es, u, hbuild, hpublish⟩ := Course.bind_ok hfill
  have hempty : Stage s base D (([] : List Copy).map Copy.output) t := h
  have hagrees := fun r u' (hr : buildPackages base workers c.packages t r u') =>
    foldlM_addPackage_agrees habs hbase hhome hS hworkers hempty (.refl t) (by simp) List.nodup_nil hbuild hr
  obtain ⟨u', ⟨hu, copies, -, -, -, hstage⟩, hpublish'⟩ := Course.bind_of_ok hagrees hcourse
  have hpublish : u.perform (publish base c es) = (.ok b, v) := hpublish
  have hpublish' : u'.perform (publish base c es) = (r, v') := hpublish'
  obtain ⟨w, hw, hsame⟩ := perform_publish_same habs hbase hname hstage hu hpublish
  rw [hpublish'] at hw
  cases hw
  exact ⟨rfl, hsame⟩

theorem Concurrent.fill_ok (h : Stage s base D [] t) (hfill : fill base c t (.ok b) v) :
    ∃ copies, Published s base D c copies b v.files := by
  obtain ⟨copies, u, w, hcopies, rfl, hkeys, hu, hwrite, hfiles⟩ :=
    fill_copies habs hbase hhome hS h hfill
  have hplain := isPlain_of_isPlainName hname
  have hw := hu.write (o := ⟨[c.manifestName], Manifest.render (copies.flatten.map Copy.entry)⟩) hbase
    (below_manifest habs hname) (by simpa using hplain) hwrite
  have hne := names_ne_nil_of_copiesOf hcopies
  rw [hfiles]
  refine ⟨copies, hcopies, rfl, rfl, rfl, hkeys, ?_, hw.confined.outside⟩
  exact hw.holds (List.mem_append_right _ List.mem_cons_self) (nodup_output_names hne hkeys)

end Apart

/-- A build that succeeds has passed its check, and has emptied its destination before it filled it. -/
theorem Concurrent.run_steps {via : List Location}
    (hrun : Concurrent.run s.cwd.path c s (.ok b) s')
    (hhome : ∀ p ∈ c.packages, ∀ n ∈ Path.segments p.home, IsPlain n)
    (hdest : s.files.Spelt s.cwd (Path.absolute s.cwd.path c.destination) via D)
    (hsource : ∀ p ∈ c.packages, ∃ S, SourceAt s D p.sourceDir S) :
    s.perform (checkDestination c.packages (Path.absolute s.cwd.path c.destination) c.manifestName) = (.ok (), s) ∧
      (∀ p ∈ c.packages, ∃ S, Apart s D p.sourceDir S) ∧
      ∃ t, s.perform (cleanDestination (Path.absolute s.cwd.path c.destination)) = (.ok (), t) ∧
        Emptied s (Path.absolute s.cwd.path c.destination) D t ∧
        Concurrent.fill (Path.absolute s.cwd.path c.destination) c t (.ok b) s' := by
  obtain ⟨habs, hplain⟩ := destination_plain s.cwd c.destination
  obtain ⟨hcheck, t, hclean, hfill⟩ := Concurrent.run_stages hrun
  generalize Path.absolute s.cwd.path c.destination = base at *
  obtain ⟨hname, real, hreal, hsources⟩ := checkDestination_ok hcheck
  have hapart : ∀ p ∈ c.packages, ∃ S, Apart s D p.sourceDir S := by
    intro p hp
    obtain ⟨S, hS⟩ := hsource p hp
    obtain ⟨source, hreal', hoverlap⟩ := hsources p hp
    exact ⟨S, hS.apart hdest hreal hreal' hoverlap⟩
  have hsite : ∀ D', s.files.Site [] (pathNames base) D' → D = D' := by
    intro D' h
    rw [← FileSystem.startOf_of_isAbsolute habs] at h
    exact hdest.eq_of_site h
  have hcleaned := cleaned_cleanDestination (s := s) habs hplain
  rw [hclean] at hcleaned
  have hreach := Concurrent.withinReach_of_fill habs hname hplain
    (inward_of_cleaned hcleaned hsite hhome hapart) hfill
  obtain ⟨D', hempty⟩ := emptied_of_cleaned hplain hcleaned hreach
  obtain rfl := hsite D' hempty.before
  exact ⟨hcheck, hapart, t, hclean, hempty, hfill⟩

/-- If a build succeeds by some timing of its workers, it does so by any other, however many workers there are:
it gives the same, and leaves the same working directory and the same file system, manifest included. -/
theorem Concurrent.run_agrees {via : List Location} {r : Except Fault Build}
    (hrun : Concurrent.run s.cwd.path c s (.ok b) s')
    (hhome : ∀ p ∈ c.packages, ∀ n ∈ Path.segments p.home, IsPlain n)
    (hdest : s.files.Spelt s.cwd (Path.absolute s.cwd.path c.destination) via D)
    (hsource : ∀ p ∈ c.packages, ∃ S, SourceAt s D p.sourceDir S) (hworkers : workers = c.workers ∨ 1 ≤ workers)
    (hcourse : Concurrent.run s.cwd.path { c with workers } s r t) : r = .ok b ∧ s'.Same t := by
  obtain ⟨habs, hplain⟩ := destination_plain s.cwd c.destination
  obtain ⟨hcheck, hapart, u, hclean, hempty, hfill⟩ := Concurrent.run_steps hrun hhome hdest hsource
  rw [Concurrent.run] at hcourse
  obtain ⟨hname, -⟩ := checkDestination_ok hcheck
  have hclean' := Course.bind_lift hcheck hcourse
  have hfill' := Course.bind_lift hclean hclean'
  exact Concurrent.fill_agrees habs hplain hname hhome hapart hworkers hempty.stage hfill hfill'

/-- A build that fails by one timing of its workers does so by any other, however many workers there are, though
maybe for another reason. -/
theorem Concurrent.run_fails {via : List Location} {f : Fault} {r : Except Fault Build}
    (hrun : Concurrent.run s.cwd.path c s (.error f) s')
    (hhome : ∀ p ∈ c.packages, ∀ n ∈ Path.segments p.home, IsPlain n)
    (hdest : s.files.Spelt s.cwd (Path.absolute s.cwd.path c.destination) via D)
    (hsource : ∀ p ∈ c.packages, ∃ S, SourceAt s D p.sourceDir S) (hworkers : 1 ≤ c.workers)
    (hcourse : Concurrent.run s.cwd.path { c with workers } s r t) : ∃ f', r = .error f' := by
  cases r with
  | error f' => exact ⟨f', rfl⟩
  | ok b => cases (Concurrent.run_agrees hcourse hhome hdest hsource (.inr hworkers) hrun).1

/-- Whatever the timing of its workers, a build that succeeds has copied all declaration files of its packages,
as they were when it began, and has left nothing else in its destination. The sources hold neither links nor
names with a backslash and are reached by no link inside the destination, and no link on the way to them or to
the destination is too far away for the check. -/
theorem run_published {via : List Location} (hrun : Concurrent.run s.cwd.path c s (.ok b) s')
    (hhome : ∀ p ∈ c.packages, ∀ n ∈ Path.segments p.home, IsPlain n)
    (hdest : s.files.Spelt s.cwd (Path.absolute s.cwd.path c.destination) via D)
    (hsource : ∀ p ∈ c.packages, ∃ S, SourceAt s D p.sourceDir S) :
    ∃ copies, Published s (Path.absolute s.cwd.path c.destination) D c copies b s'.files := by
  obtain ⟨habs, hplain⟩ := destination_plain s.cwd c.destination
  obtain ⟨hcheck, hapart, t, -, hempty, hfill⟩ := Concurrent.run_steps hrun hhome hdest hsource
  obtain ⟨hname, -⟩ := checkDestination_ok hcheck
  exact Concurrent.fill_ok habs hplain hname hhome hapart hempty.stage hfill

/-- To copy one file after the other is one of the courses of a build. -/
theorem run_published_workshop :
    let b : Build :=
      { destination := "/w/out".toList
        manifestPath := "/w/out/dts-list.ts".toList
        entries := [Manifest.entry "a".toList "d/x.d.ts".toList,
          Manifest.entry "c/e".toList "y.d.ts".toList] }
    let s' := (workshop.perform (run workshop.cwd.path (workshopBuild "a".toList))).2
    Concurrent.run workshop.cwd.path (workshopBuild "a".toList) workshop (.ok b) s' ∧
      ∃ copies, Published workshop "/w/out".toList ["out".toList, "w".toList]
        (workshopBuild "a".toList) copies b s'.files := by
  intro b s'
  have hrun : (workshop.perform (run workshop.cwd.path (workshopBuild "a".toList))).1 = .ok b := by
    decide +kernel
  have hcourse : Concurrent.run workshop.cwd.path (workshopBuild "a".toList) workshop (.ok b) s' :=
    Concurrent.run_allows _ _ _ _ _ (Prod.ext hrun rfl)
  have hout := workshop_spelt (n := "out".toList) (by decide) (by decide)
    (show Path.isAbsolute (Path.absolute workshop.cwd.path "out".toList) = true by decide) (by decide)
  have hbase : Path.absolute workshop.cwd.path (workshopBuild "a".toList).destination =
      "/w/out".toList := by
    decide
  refine ⟨hcourse, ?_⟩
  rw [← hbase]
  exact run_published hcourse (by decide) hout workshop_sources

/-- A directory `pa` with `x.d.ts`, a link `l` to the root by way of so many parents that nothing behind
it can be looked at, and a link `k` to a place in the directory `out` that is still missing. -/
def linkedFar : Host where
  files :=
    ((((FileSystem.empty.put [] "pa".toList .directory).put
      ["pa".toList] "x.d.ts".toList (.file (.text "A".toList))).put
      [] "l".toList (.link (Path.ofSegments (List.replicate 1365 Path.up)))).put
      [] "k".toList (.link "out/d".toList))
  cwd := []
  log := []

/-- The check does not see that the source of the second package is where the copies of the first come. -/
def throughFarLink : Settings where
  destination := "out".toList
  packages := [{ home := "d".toList, sourceDir := "pa".toList },
    { home := "b".toList, sourceDir := "l/k".toList }]

/-- Where a source is reached by a link inside the destination, or by one that is too far away for the
check, the second package is not copied from its source, but from what was copied before. -/
theorem run_copies_copies :
    (declarations linked "out/a/d".toList = ["y.d.ts".toList] ∧
      (linked.perform (run linked.cwd.path throughLink)).1 = .ok
        { destination := "/out".toList
          manifestPath := "/out/dts-list.ts".toList
          entries := [Manifest.entry "a".toList "d/x.d.ts".toList,
            Manifest.entry "b".toList "x.d.ts".toList] } ∧
      (linked.perform (run linked.cwd.path throughLink)).2.files.lookup
        ["y.d.ts".toList, "b".toList, "out".toList] = none) ∧
    declarations linkedFar "l/k".toList = [] ∧
      (linkedFar.perform (run linkedFar.cwd.path throughFarLink)).1 = .ok
        { destination := "/out".toList
          manifestPath := "/out/dts-list.ts".toList
          entries := [Manifest.entry "d".toList "x.d.ts".toList,
            Manifest.entry "b".toList "x.d.ts".toList] } ∧
      (linkedFar.perform (run linkedFar.cwd.path throughFarLink)).2.files.lookup
        ["x.d.ts".toList, "b".toList, "out".toList] ≠ none := by
  decide +kernel

end Build

end Rehome
