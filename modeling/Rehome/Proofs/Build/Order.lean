import Mathlib.Data.List.Perm.Basic
import Rehome.Proofs.Build.Gathering
import Rehome.Proofs.Build.Regeneration

/-! The order of packages. It decides in which order their entries come, and nothing else, whatever the timing
of the workers is. -/

namespace Rehome

open FileSystem (pathNames Confined Elsewhere)
open Rehome.Path (IsPlain)

namespace FileSystem

variable {fs fs' gs gs' : FileSystem} {base t t' : Text} {D p q : Location}

/-- The same file is filled on two file systems that are alike. What else stands there stays alike. -/
theorem Filled.lookup_congr (h : fs.Filled p t fs') (h' : gs.Filled p t' gs')
    (hsame : ∀ q, gs.lookup q = fs.lookup q) (hq : q ≠ p) : gs'.lookup q = fs'.lookup q := by
  by_cases hon : q <:+ p
  · rw [lookup_of_suffix h.file hon hq, lookup_of_suffix h'.file hon hq]
  · rw [(h.changed q hq).resolve_right fun hr => hon hr.1,
      (h'.changed q hq).resolve_right fun hr => hon hr.1, hsame]

end FileSystem

namespace Build

variable {s s' t u v w : Host} {base path txt : Text} {D : Location} {c : Settings} {b : Build}
  {ps qs : List Package} {copies : List (List Copy)} {workers : Int}

/-- Whether a file can be written does not depend on its text. -/
theorem perform_writeText_text (h : u.perform (writeText path txt) = (.ok (), v)) (txt' : Text) :
    ∃ v', u.perform (writeText path txt') = (.ok (), v') := by
  obtain ⟨⟨⟩, x, hmake, hrest⟩ := Host.perform_bind_ok h
  obtain ⟨p, y, hcreate, -⟩ := Host.perform_bind_ok hrest
  refine ⟨{ y with files := y.files.putFile p (.text txt') }, ?_⟩
  rw [writeText, Host.perform_bind, hmake]
  dsimp only
  rw [Host.perform_bind, hcreate]
  rfl

/-- The entries of the declaration files of a package, in the order of their paths. -/
def block (s : Host) (p : Package) : List Manifest.Entry :=
  (Text.sort (declarations s p.sourceDir)).map (Manifest.entry p.home)

theorem entries_of_gathers (h : List.Forall₂ (Gathers s t D workers) ps copies) :
    copies.flatten.map Copy.entry = ps.flatMap (block s) := by
  induction h with
  | nil => rfl
  | @cons p new ps copies hp _ ih =>
    have hnew : new.map Copy.entry = block s p := by
      rw [block, ← hp.rels, List.map_map]
      refine List.map_congr_left fun c hc => ?_
      obtain rfl := hp.package c hc
      rfl
    rw [List.flatten_cons, List.map_append, List.flatMap_cons, hnew, ih]

/-! ### The first order -/

/-- A source that is a directory stands apart from a destination that has passed. -/
theorem Settled.apart {real : Text} (h : Settled s base D ps) (hsource : ∀ p ∈ ps, Wholesome s p.sourceDir)
    (hreal : s.realPath base = .ok real) (hcheck : ∀ p ∈ ps, ∃ source, s.realPath p.sourceDir = .ok source ∧
      Path.overlaps? real source ≠ some true) :
    ∀ p ∈ ps, s.files.isDirectory s.cwd p.sourceDir = true → ∃ S, Apart s D p.sourceDir S := by
  intro p hp hdir
  obtain ⟨via, hdest⟩ := h.destination
  obtain ⟨S, hS⟩ := h.sourceAt hp (hsource p hp) hdir
  obtain ⟨source, hreal', hoverlap⟩ := hcheck p hp
  exact ⟨S, hS.apart hdest hreal hreal' hoverlap⟩

/-- Once the destination is clean, the places of the copies are below it. -/
theorem inward_of_settled (hhome : ∀ p ∈ ps, ∀ n ∈ Path.segments p.home, IsPlain n)
    (hsource : ∀ p ∈ ps, Wholesome s p.sourceDir)
    (hsettled : ∀ D, s.files.Site [] (pathNames base) D → Settled s base D ps ∧
      ∀ p ∈ ps, s.files.isDirectory s.cwd p.sourceDir = true → ∃ S, Apart s D p.sourceDir S)
    (h : Cleaned s base (.ok ()) t) :
    ∀ p ∈ ps, ∀ rel ∈ declarations t p.sourceDir, Inward p.home rel := by
  intro p hp rel hrel
  obtain ⟨S, hfound⟩ := found_of_mem_declarations hrel
  cases h with
  | absent =>
    obtain ⟨hfree, hback⟩ := hsource p hp S hfound
    exact inward_of_mem_declarations (hhome p hp) hfound hfree (fun names x hd => hback names x hd.lookup) hrel
  | removed hv _ hfiles hcwd =>
    obtain ⟨hsteady, hapart⟩ := hsettled _ hv.site
    have hsince := (since_of_removed hfiles hcwd).2
    have hdir := (hsteady.steady p hp t hsince).symm.trans (FileSystem.isDirectory_eq_true_iff.2 ⟨S, hfound⟩)
    obtain ⟨S', hS⟩ := hapart p hp hdir
    exact hsince.inward hS (hhome p hp) rel hrel

/-- What a build has done before it wrote the manifest: the destination was cleaned, which left `t`, and the
copies were made, which left `u`. -/
structure Copied (s : Host) (base : Text) (D : Location) (c : Settings) (t : Host) (copies : List (List Copy))
    (u : Host) : Prop where
  cleaned : s.perform (cleanDestination base) = (.ok (), t)
  emptied : Emptied s base D t
  gathers : List.Forall₂ (Gathers s t D c.workers) c.packages copies
  keys : ((copies.flatten.map Copy.entry).map (·.key)).Nodup
  layout : Layout t base D copies.flatten u.files
  confined : Confined s.files base D u.files

/-- A build that succeeds in some course has come to its manifest by way of a clean destination. -/
theorem Concurrent.run_copied (hbase : Path.absolute s.cwd.path c.destination = base)
    (hrun : Concurrent.run s.cwd.path c s (.ok b) s')
    (hhome : ∀ p ∈ c.packages, ∀ n ∈ Path.segments p.home, IsPlain n)
    (hsource : ∀ p ∈ c.packages, Wholesome s p.sourceDir)
    (hsettled : ∀ D, s.files.Site [] (pathNames base) D → Settled s base D c.packages) :
    s.perform (checkDestination c.packages base c.manifestName) = (.ok (), s) ∧
      ∃ D t copies u w, Copied s base D c t copies u ∧
        b = ⟨base, Path.join base c.manifestName, copies.flatten.map Copy.entry⟩ ∧
        u.perform (writeText (Path.join base c.manifestName) (Manifest.render b.entries)) = (.ok (), w) ∧
        s'.files = w.files := by
  obtain ⟨habs, hplain⟩ := destination_plain s.cwd c.destination
  rw [hbase] at habs hplain
  obtain ⟨hcheck, t, hclean, hfill⟩ := Concurrent.run_stages hrun
  rw [hbase] at hcheck hclean hfill
  obtain ⟨hname, real, hreal, hsources⟩ := checkDestination_ok hcheck
  have happly : ∀ D, s.files.Site [] (pathNames base) D → Settled s base D c.packages ∧
      ∀ p ∈ c.packages, s.files.isDirectory s.cwd p.sourceDir = true → ∃ S, Apart s D p.sourceDir S :=
    fun D hD => ⟨hsettled D hD, (hsettled D hD).apart hsource hreal hsources⟩
  have hcleaned := cleaned_cleanDestination (s := s) habs hplain
  rw [hclean] at hcleaned
  have hreach := Concurrent.withinReach_of_fill habs hname hplain
    (inward_of_settled hhome hsource happly hcleaned) hfill
  obtain ⟨D, hempty⟩ := emptied_of_cleaned hplain hcleaned hreach
  obtain ⟨hsteady, hapart⟩ := happly D hempty.before
  obtain ⟨es, u, hbuild, hpublish⟩ := Course.bind_ok hfill
  obtain ⟨copies, hcopies, rfl, hkeys, hu, hspread⟩ :=
    Concurrent.buildPackages_gather habs hempty hhome hsteady.steady hapart hempty.ongoing (.nil ..) (by simp)
      List.nodup_nil hbuild
  rw [List.nil_append] at hkeys hspread hpublish
  have hlayout := hspread.layout_of_gathers hempty habs hu hcopies hkeys
  obtain ⟨w, rfl, hwrite, hfiles, -⟩ := publish_ok hpublish
  exact ⟨hcheck, D, t, copies, u, w, ⟨hclean, hempty, hcopies, hkeys, hlayout, hu.confined⟩, rfl, hwrite, hfiles⟩

/-! ### Any other -/

/-- In any order of the packages, and with any timing of the workers, the same copies are made, from the same
clean destination. -/
theorem Copied.buildPackages_course {r : Except Fault (List Manifest.Entry)}
    (h : Copied s base D c t copies u) (hperm : c.packages.Perm qs)
    (hcourse : Concurrent.buildPackages base c.workers qs t r v) :
    r = .ok (qs.flatMap (block s)) ∧ Confined s.files base D v.files ∧ ∀ q, v.files.lookup q = u.files.lookup q := by
  obtain ⟨copies', hcopies', hsame⟩ := List.perm_comp_forall₂ hperm.symm h.gathers
  have hflat := hsame.flatten
  have hlayout := h.layout.perm hflat.symm
  have hoffers : List.Forall₂ (Offers t D copies'.flatten u.files c.workers) qs copies' :=
    hcopies'.imp fun p new hnew => hnew.offers h.emptied h.confined.toElsewhere
  have hkeys := (((hflat.map Copy.entry).map (·.key)).nodup_iff).2 h.keys
  obtain ⟨rfl, hv⟩ :=
    hlayout.buildPackages_course hlayout.partly_self hoffers (List.Subset.refl _) hkeys hcourse
  have hlookup := hlayout.lookup_eq hv.amid hv.stands
  have hsince := hv.amid.since h.emptied h.confined.toElsewhere
  rw [List.nil_append, entries_of_gathers hcopies']
  exact ⟨rfl, ⟨hsince.elsewhere, h.confined.site.congr hlookup⟩, hlookup⟩

/-- What a build that succeeds and one of the same packages in another order have in common. -/
structure Alternates (s : Host) (c : Settings) (qs : List Package) (b : Build) (s' : Host) (b' : Build)
    (s'' : Host) : Prop where
  entries : b.entries = c.packages.flatMap (block s)
  entries' : b'.entries = qs.flatMap (block s)
  destination : b'.destination = b.destination
  manifestPath : b'.manifestPath = b.manifestPath
  files : ∃ via D, s'.files.Leads [] (pathNames b.destination) via D ∧
    ∀ q, q ≠ c.manifestName :: D → s''.files.lookup q = s'.files.lookup q

/-- The manifest is written whatever it says. -/
theorem Copied.publish (h : Copied s base D c t copies u) (habs : Path.isAbsolute base = true)
    (hplain : ∀ n ∈ pathNames base, IsPlain n) (hname : Manifest.isPlainName c.manifestName = true)
    (hwrite : u.perform (writeText (Path.join base c.manifestName) txt) = (.ok (), w))
    (hv : Confined s.files base D v.files) (hlookup : ∀ q, v.files.lookup q = u.files.lookup q)
    (es : List Manifest.Entry) :
    ∃ x, v.perform (Build.publish base c es) = (.ok ⟨base, Path.join base c.manifestName, es⟩, x) ∧
      ∀ q, q ≠ c.manifestName :: D → x.files.lookup q = w.files.lookup q := by
  have hpath := below_manifest habs hname
  have hns : ∀ n ∈ [c.manifestName], IsPlain n := List.forall_mem_singleton.2 (isPlain_of_isPlainName hname)
  obtain ⟨x, hx, -⟩ := writeText_ahead hpath hplain hns h.confined hv (fun q => .inl (hlookup q)) hwrite
  obtain ⟨y, hy⟩ := perform_writeText_text hx (Manifest.render es)
  obtain ⟨-, -, hfill⟩ := writeText_ok hpath hplain hns h.confined hwrite
  obtain ⟨-, -, hfill'⟩ := writeText_ok hpath hplain hns hv hy
  have hpublish : ∃ l, v.perform (Build.publish base c es) =
      (.ok ⟨base, Path.join base c.manifestName, es⟩, { y with log := l }) := by
    rw [Build.publish, Host.perform_bind, hy]
    dsimp only
    rw [Host.perform_bind, Host.perform_log]
    exact ⟨_, rfl⟩
  obtain ⟨l, hl⟩ := hpublish
  exact ⟨_, hl, fun q hq => hfill.lookup_congr hfill' hlookup hq⟩

/-- A build that succeeds in some course does so in any other, with its packages in any order. -/
theorem Concurrent.run_of_ok {r : Except Fault Build} (hperm : c.packages.Perm qs)
    (hrun : Concurrent.run s.cwd.path c s (.ok b) s')
    (hhome : ∀ p ∈ c.packages, ∀ n ∈ Path.segments p.home, IsPlain n)
    (hsource : ∀ p ∈ c.packages, Wholesome s p.sourceDir)
    (hsettled : ∀ D, s.files.Site [] (pathNames (Path.absolute s.cwd.path c.destination)) D →
      Settled s (Path.absolute s.cwd.path c.destination) D c.packages)
    (hrun' : Concurrent.run s.cwd.path { c with packages := qs } s r v) :
    ∃ b', r = .ok b' ∧ Alternates s c qs b s' b' v := by
  obtain ⟨habs, hplain⟩ := destination_plain s.cwd c.destination
  rw [Concurrent.run] at hrun'
  generalize hbase : Path.absolute s.cwd.path c.destination = base at *
  obtain ⟨hcheck, D, t, copies, u, w, h, rfl, hwrite, hfiles⟩ :=
    Concurrent.run_copied hbase hrun hhome hsource hsettled
  obtain ⟨hname, real, hreal, hsources⟩ := checkDestination_ok hcheck
  have hcheck' := perform_checkDestination hname hreal fun p hp => hsources p (hperm.mem_iff.2 hp)
  have hpath := below_manifest habs hname
  have hns : ∀ n ∈ [c.manifestName], IsPlain n := List.forall_mem_singleton.2 (isPlain_of_isPlainName hname)
  obtain ⟨-, hw, hfill⟩ := writeText_ok hpath hplain hns h.confined hwrite
  -- Each step of the other course comes to where that of the first one came.
  have hclean' := Course.bind_lift hcheck' hrun'
  have hfill' := Course.bind_lift h.cleaned hclean'
  obtain ⟨x, ⟨hconf, hlookup⟩, hpublish⟩ :=
    Course.bind_of_ok (fun r x hr => h.buildPackages_course hperm hr) hfill'
  obtain ⟨y, hy, hsame⟩ := h.publish habs hplain hname hwrite hconf hlookup (qs.flatMap (block s))
  have hpublish : x.perform (publish base c (qs.flatMap (block s))) = (r, v) := hpublish
  rw [hy] at hpublish
  cases hpublish
  have hD : w.files.lookup D = some .directory := FileSystem.lookup_parent hfill.file
  obtain ⟨via, hvia⟩ := hw.site.leads (by simp [hD])
  rw [← hfiles] at hvia hsame
  exact ⟨_, rfl, entries_of_gathers h.gathers, rfl, rfl, rfl, via, D, hvia, hsame⟩

theorem Settled.perm (h : Settled s base D ps) (hperm : ps.Perm qs) : Settled s base D qs :=
  ⟨h.destination, fun p hp => h.source p (hperm.mem_iff.2 hp), fun p hp => h.steady p (hperm.mem_iff.2 hp)⟩

/-- The order of packages makes no difference but to the order of entries, whatever the timing of the workers is:
a build succeeds in one order if and only if it does in any other. It leaves the same files then, apart from the
manifest, and for each package the same entries, package after package in the order of the list. The sources hold
neither links nor names with a backslash, nothing that the build does decides which of them are directories, and
no link on the way to them or to the destination is too far away for the check. -/
theorem run_permuted (hperm : c.packages.Perm qs)
    (hhome : ∀ p ∈ c.packages, ∀ n ∈ Path.segments p.home, IsPlain n)
    (hsource : ∀ p ∈ c.packages, Wholesome s p.sourceDir)
    (hsettled : ∀ D, s.files.Site [] (pathNames (Path.absolute s.cwd.path c.destination)) D →
      Settled s (Path.absolute s.cwd.path c.destination) D c.packages) :
    ∀ r s' r' s'', Concurrent.run s.cwd.path c s r s' →
      Concurrent.run s.cwd.path { c with packages := qs } s r' s'' →
      ((∃ b, r = .ok b) ↔ ∃ b', r' = .ok b') ∧
        ∀ b b', r = .ok b → r' = .ok b' → Alternates s c qs b s' b' s'' := by
  intro r s' r' s'' hrun hrun'
  refine ⟨⟨?_, ?_⟩, ?_⟩
  · rintro ⟨b, rfl⟩
    obtain ⟨b', hb', -⟩ := Concurrent.run_of_ok hperm hrun hhome hsource hsettled hrun'
    exact ⟨b', hb'⟩
  · rintro ⟨b', rfl⟩
    obtain ⟨b, hb, -⟩ := Concurrent.run_of_ok hperm.symm hrun' (fun p hp => hhome p (hperm.mem_iff.2 hp))
      (fun p hp => hsource p (hperm.mem_iff.2 hp)) (fun D hD => (hsettled D hD).perm hperm) hrun
    exact ⟨b, hb⟩
  · rintro b b' rfl rfl
    obtain ⟨_, hb, halternates⟩ := Concurrent.run_of_ok hperm hrun hhome hsource hsettled hrun'
    cases hb
    exact halternates

theorem workshop_settled {D : Location}
    (hD : workshop.files.Site []
      (pathNames (Path.absolute workshop.cwd.path (workshopBuild "a".toList).destination)) D) :
    Settled workshop (Path.absolute workshop.cwd.path (workshopBuild "a".toList).destination) D
      (workshopBuild "a".toList).packages := by
  have hbase : Path.absolute workshop.cwd.path (workshopBuild "a".toList).destination = "/w/out".toList := by
    decide
  rw [hbase] at hD ⊢
  have hout := workshop_spelt (n := "out".toList) (by decide) (by decide)
    (show Path.isAbsolute "/w/out".toList = true by decide) (by decide)
  obtain rfl : ["out".toList, "w".toList] = D :=
    hout.eq_of_site (by rwa [FileSystem.startOf_of_isAbsolute (show Path.isAbsolute "/w/out".toList = true by decide)])
  have hdirs : ∀ p ∈ (workshopBuild "a".toList).packages,
      workshop.files.isDirectory workshop.cwd p.sourceDir = true ∧
        ((workshop.files.clear ["out".toList, "w".toList]).prune ["out".toList, "w".toList]).isDirectory
          workshop.cwd p.sourceDir = true := by
    decide +kernel
  refine ⟨⟨[], hout⟩, fun p hp _ => ?_, fun p hp u hu => ?_⟩
  · obtain ⟨S, ⟨via, hspelt, -⟩, -, -⟩ := workshop_sources p hp
    exact ⟨via, S, hspelt⟩
  · rw [(hdirs p hp).1]
    exact hu.isDirectory_of_removed (fun _ => by decide +kernel) (hdirs p hp).2

theorem workshop_wholesome :
    ∀ p ∈ (workshopBuild "a".toList).packages, Wholesome workshop p.sourceDir := by
  intro p hp S hfound
  obtain ⟨S', ⟨via, hspelt, -⟩, hfree, hback⟩ := workshop_sources p hp
  obtain rfl := hspelt.eq_of_found hfound
  exact ⟨hfree, hback⟩

/-- The sources of the workshop are built the other way round. -/
theorem run_permuted_workshop :
    let b : Build :=
      { destination := "/w/out".toList
        manifestPath := "/w/out/dts-list.ts".toList
        entries := [Manifest.entry "a".toList "d/x.d.ts".toList,
          Manifest.entry "c/e".toList "y.d.ts".toList] }
    let s' := (workshop.perform (run workshop.cwd.path (workshopBuild "a".toList))).2
    Concurrent.run workshop.cwd.path (workshopBuild "a".toList) workshop (.ok b) s' ∧
      ∀ r s'', Concurrent.run workshop.cwd.path
          { workshopBuild "a".toList with packages := (workshopBuild "a".toList).packages.reverse }
          workshop r s'' →
        ∃ b', r = .ok b' ∧ b'.entries = b.entries.reverse ∧
          ∀ q, q ≠ ["dts-list.ts".toList, "out".toList, "w".toList] → s''.files.lookup q = s'.files.lookup q := by
  intro b s'
  have hrun : (workshop.perform (run workshop.cwd.path (workshopBuild "a".toList))).1 = .ok b := by
    decide +kernel
  have hcourse : Concurrent.run workshop.cwd.path (workshopBuild "a".toList) workshop (.ok b) s' :=
    Concurrent.run_allows _ _ _ _ _ (Prod.ext hrun rfl)
  refine ⟨hcourse, fun r s'' hrun' => ?_⟩
  obtain ⟨hiff, hboth⟩ := run_permuted (List.reverse_perm (workshopBuild "a".toList).packages).symm (by decide)
    workshop_wholesome (fun _ => workshop_settled) _ _ r s'' hcourse hrun'
  obtain ⟨b', rfl⟩ := hiff.1 ⟨b, rfl⟩
  obtain ⟨-, hentries, -, -, via, D, hv, hfiles⟩ := hboth b b' rfl rfl
  have hfound : s'.files.find [] .look "/w/out".toList =
      .ok (.found ["out".toList, "w".toList] .directory) := by
    decide +kernel
  obtain ⟨via', -, hv'⟩ := FileSystem.leads_of_find hfound
  obtain ⟨-, rfl⟩ := hv.deterministic hv'
  refine ⟨b', rfl, ?_, hfiles⟩
  rw [hentries]
  decide +kernel

/-- A directory `o` with a file beside the source of the first package, and a link `m` to it. -/
def linkedBeside : Host where
  files :=
    ((linkedFar.files.put [] "o".toList .directory).put
      ["o".toList] "y.d.ts".toList (.file (.text []))).put
      [] "m".toList (.link "o".toList)
  cwd := []
  log := []

/-- The check does not see that the source of the second package is where the destination is. -/
def aroundDestination : Settings where
  destination := "o/out".toList
  packages := [{ home := "d".toList, sourceDir := "pa".toList },
    { home := "b".toList, sourceDir := "l/m".toList }]

/-- The order of packages makes a difference where the way to a source passes the copies of another package,
although there are no links at all, and where a link that is too far away for the check leads to what the
destination is in. -/
theorem run_depends_on_order :
    ((∀ e ∈ forked.files.entries, (e.2 matches .link _) = false) ∧
      (forked.perform (run forked.cwd.path throughCopies)).1 = .ok
        { destination := "/out".toList
          manifestPath := "/out/dts-list.ts".toList
          entries := [Manifest.entry "k".toList "x.d.ts".toList,
            Manifest.entry "b".toList "y.d.ts".toList] } ∧
      (forked.perform (run forked.cwd.path
          { throughCopies with packages := throughCopies.packages.reverse })).1 =
        .error (.noSource "out/k/../../src".toList)) ∧
    (linkedBeside.perform (run linkedBeside.cwd.path aroundDestination)).1 = .ok
        { destination := "/o/out".toList
          manifestPath := "/o/out/dts-list.ts".toList
          entries := [Manifest.entry "d".toList "x.d.ts".toList,
            Manifest.entry "b".toList "out/d/x.d.ts".toList,
            Manifest.entry "b".toList "y.d.ts".toList] } ∧
      (linkedBeside.perform (run linkedBeside.cwd.path
          { aroundDestination with packages := aroundDestination.packages.reverse })).1 = .ok
        { destination := "/o/out".toList
          manifestPath := "/o/out/dts-list.ts".toList
          entries := [Manifest.entry "b".toList "y.d.ts".toList,
            Manifest.entry "d".toList "x.d.ts".toList] } := by
  refine ⟨⟨by decide +kernel, by decide +kernel, by decide +kernel⟩, by decide +kernel, by decide +kernel⟩

end Build

end Rehome
