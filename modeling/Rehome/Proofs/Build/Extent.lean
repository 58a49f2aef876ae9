import Rehome.Proofs.Build.Certificate

/-! How far a build reaches. Whatever the timing of its workers, and whether it succeeds or not, it changes
nothing but what is in its destination, as long as no file that it scans has a place that leads out of
there. -/

namespace Rehome.Build

open FileSystem (pathNames Confined Outside)
open Rehome.Path (IsPlain)

variable {base : Text} {c : Settings} {s t u v : Host} {r : Except Fault Build} {D : Location}

/-! ### Once the destination is clean -/

section Fill

variable (habs : Path.isAbsolute base = true) (hname : Manifest.isPlainName c.manifestName = true)
  (hinward : ∀ p u, Course.Turn (Concurrent.addPackage base c.workers) (fun es => publish base c es)
    c.packages [] v r t p u → ∀ rel ∈ declarations u p.sourceDir, Inward p.home rel)
  (h : Concurrent.fill base c v r t)
include habs hname hinward h

theorem Concurrent.fill_keptBelow {I : Host → Prop} {Q : Location → Prop} (hI : KeptBelow base I Q)
    (hv : I v) : I t := by
  refine (Course.Turn.keeps (fun p u hturn es r' w hadd hu => ?_)
    (fun es => .lift (publish_keeps hI habs hname es)) h hv).1
  exact addPackage_keeps hI.log (fun rel hrel => prepare_keptBelow hI habs (hinward p u hturn rel hrel)
    (isFile_of_mem_declarations hrel)) hadd hu

/-- After the cleaning a build leaves everything, or changes nothing but what is at the site of its
destination. -/
theorem Concurrent.fill_outside (hplain : ∀ n ∈ pathNames base, IsPlain n) (hv : Cleaned s base (.ok ()) v) :
    t.files = s.files ∨ ∃ D, s.files.Site [] (pathNames base) D ∧ Outside s.files D t.files := by
  by_cases hreach : v.WithinReach base
  · obtain ⟨D, hempty⟩ := emptied_of_cleaned hplain hv hreach
    exact .inr ⟨D, hempty.before, (fill_keptBelow habs hname hinward h (keptBelow_confined s.files D)
      hempty.stage.confined).outside⟩
  · have hsame := (fill_keptBelow habs hname hinward h (keptBelow_unreached habs hplain hreach) ⟨rfl, rfl⟩).1
    rw [hsame]
    cases hv with
    | absent => exact .inl rfl
    | removed hv _ hfiles hcwd =>
      exact .inr ⟨_, hv.site, fun q hq => .inl ((since_of_removed hfiles hcwd).1.outside q hq)⟩

end Fill

/-! ### Whole builds -/

/-- In a course of the build from `s` that ends with `r` at `t`, the package `p` is scanned at `u`. -/
def Concurrent.Scans (c : Settings) (s : Host) (r : Except Fault Build) (t : Host) (p : Package) (u : Host) :
    Prop :=
  let base := Path.absolute s.cwd.path c.destination
  ∃ v, s.perform (do checkDestination c.packages base c.manifestName; cleanDestination base) = (.ok (), v) ∧
    Course.Turn (addPackage base c.workers) (fun es => publish base c es) c.packages [] v r t p u

/-- What is scanned in a course of the build is scanned in one that it can take. -/
theorem Concurrent.Scans.course {p : Package} (h : Concurrent.Scans c s r t p u) :
    p ∈ c.packages ∧ Concurrent.run s.cwd.path c s r t := by
  obtain ⟨v, hstart, hturn⟩ := h
  obtain ⟨⟨⟩, w, hcheck, hclean⟩ := Host.perform_bind_ok hstart
  obtain ⟨hp, hfill⟩ := hturn.course
  exact ⟨hp, .inl ⟨(), w, hcheck, .inl ⟨(), v, hclean, hfill⟩⟩⟩

/-- A build whose destination is refused leaves everything, and so does one that finds nowhere to go; any other
changes nothing but what is at the site of its destination. -/
theorem Concurrent.run_outside (hrun : Concurrent.run s.cwd.path c s r t)
    (hinward : ∀ p u, Concurrent.Scans c s r t p u → ∀ rel ∈ declarations u p.sourceDir, Inward p.home rel) :
    t.files = s.files ∨
      (∃ real, s.realPath (Path.absolute s.cwd.path c.destination) = .ok real ∧
        ∀ p ∈ c.packages, ∃ source, s.realPath p.sourceDir = .ok source ∧
          Path.overlaps? real source ≠ some true) ∧
      ∃ D, s.files.Site [] (pathNames (Path.absolute s.cwd.path c.destination)) D ∧
        Outside s.files D t.files := by
  obtain ⟨habs, hplain⟩ := destination_plain s.cwd c.destination
  rcases Course.bind_iff.1 hrun with ⟨⟨⟩, u, hcheck, hrest⟩ | ⟨e, hcheck, -⟩
  swap
  · exact .inl (congrArg Host.files (checkDestination_host_eq hcheck))
  rw [Course.lift_iff] at hcheck
  obtain rfl := checkDestination_host_eq hcheck
  obtain ⟨hname, hreal⟩ := checkDestination_ok hcheck
  have hcleaned := cleaned_cleanDestination (s := u) habs hplain
  rcases Course.bind_iff.1 hrest with ⟨⟨⟩, v, hclean, hfill⟩ | ⟨e, hclean, -⟩ <;>
    rw [Course.lift_iff] at hclean <;> rw [hclean] at hcleaned
  · have hstart : u.perform (do
        checkDestination c.packages (Path.absolute u.cwd.path c.destination) c.manifestName
        cleanDestination (Path.absolute u.cwd.path c.destination)) = (.ok (), v) := by
      rw [Host.perform_bind, hcheck]
      exact hclean
    exact (fill_outside habs hname (fun p w hturn => hinward p w ⟨v, hstart, hturn⟩) hfill hplain
      hcleaned).imp_right fun h => ⟨hreal, h⟩
  · cases hcleaned with
    | kept hfiles => exact .inl hfiles
    | @emptied _ _ D via hv hfiles =>
      exact .inr ⟨hreal, D, hv.site, fun q hq => .inl (by rw [hfiles, FileSystem.lookup_clear_of_not_suffix hq])⟩

/-- As long as no file has a place that leads out of the destination, whatever stands in there, nothing but the
destination was removed and worked in when a package is scanned. -/
theorem Concurrent.Scans.underway {p : Package} (h : Concurrent.Scans c s r t p u)
    (hinward : ∀ u, Underway s (Path.absolute s.cwd.path c.destination) u →
      ∀ p ∈ c.packages, ∀ rel ∈ declarations u p.sourceDir, Inward p.home rel) :
    Underway s (Path.absolute s.cwd.path c.destination) u := by
  obtain ⟨habs, hplain⟩ := destination_plain s.cwd c.destination
  obtain ⟨v, hstart, before, after, es, hpackages, hbefore, -⟩ := h
  obtain ⟨⟨⟩, w, hcheck, hclean⟩ := Host.perform_bind_ok hstart
  obtain rfl := checkDestination_host_eq hcheck
  have hcleaned := cleaned_cleanDestination (s := w) habs hplain
  rw [hclean] at hcleaned
  generalize Path.absolute w.cwd.path c.destination = base at *
  have hkept : ∀ {I : Host → Prop} {Q : Location → Prop}, KeptBelow base I Q →
      (∀ x, I x → Underway w base x) → I v → I u := by
    intro I Q hI hunder hv
    refine (Concurrent.buildPackages_keeps hI.log (fun q hq x hx rel hrel => ?_) v _ u hbefore hv).1
    have hq' : q ∈ c.packages := hpackages ▸ List.mem_append_left _ hq
    exact prepare_keptBelow hI habs (hinward x (hunder x hx) q hq' rel hrel) (isFile_of_mem_declarations hrel)
  by_cases hreach : v.WithinReach base
  · obtain ⟨D, hempty⟩ := emptied_of_cleaned hplain hcleaned hreach
    have hunder : ∀ x : Host, Confined w.files base D x.files ∧ x.cwd = v.cwd → Underway w base x :=
      fun x hx => .inr ⟨D, hempty.before, hx.1.toElsewhere, hx.2 ▸ hempty.stage.faded⟩
    exact hunder u (hkept ((keptBelow_confined w.files D).with_cwd v.cwd) hunder
      ⟨hempty.stage.confined, rfl⟩)
  · have hunder : ∀ x : Host, x.files = v.files ∧ x.cwd = v.cwd → Underway w base x := by
      rintro x ⟨hfiles, hcwd⟩
      cases hcleaned with
      | absent => exact .inl ⟨hfiles, hcwd⟩
      | removed hv _ hfiles' hcwd' =>
        obtain ⟨-, helse, hfaded⟩ := since_of_removed hfiles' hcwd'
        exact .inr ⟨_, hv.site, hfiles ▸ helse, hcwd ▸ hfaded⟩
    exact hunder u (hkept (keptBelow_unreached habs hplain hreach) hunder ⟨rfl, rfl⟩)

/-- What is found in a source that stands apart was there at first. -/
theorem Underway.declarations_subset {dir : Text} {S : Location} (hu : Underway s base u)
    (hS : Apart s D dir S) (hfound : s.files.find s.cwd .look dir = .ok (.found S .directory))
    (hsite : ∀ D', s.files.Site [] (pathNames base) D' → D' = D) :
    declarations u dir ⊆ declarations s dir := by
  rcases hu with ⟨hfiles, hcwd⟩ | ⟨D', hD', hsince⟩
  · rw [declarations, hfiles, hcwd]
    exact List.Subset.refl _
  · obtain rfl := hsite D' hD'
    intro rel hrel
    obtain ⟨S', hfound'⟩ := found_of_mem_declarations hrel
    obtain rfl := hsince.eq_of_found hS hfound'
    obtain ⟨names, x, hd, he⟩ := (mem_declarations hfound' (hsince.linkFree hS)).1 hrel
    exact (mem_declarations hfound hS.linkFree).2 ⟨names, x, (hsince.listed_iff hS).1 hd, he⟩

/-- As long as no file that a scan finds in the course of a build has a place that leads out of the
destination, the build is confined to the site of the destination, whatever the timing of its workers. Where no
link on the way to the destination or to a source is too far away for the check, what lies in the source is as
it was, whether the build succeeds or not. -/
theorem run_confined (hrun : Concurrent.run s.cwd.path c s r t)
    (hinward : ∀ p u, Concurrent.Scans c s r t p u → ∀ rel ∈ declarations u p.sourceDir, Inward p.home rel) :
    (∀ q, t.files.lookup q = s.files.lookup q ∨
      ∃ D, s.files.Site [] (pathNames (Path.absolute s.cwd.path c.destination)) D ∧
        (D <:+ q ∨ q <:+ D ∧ s.files.lookup q = none ∧ t.files.lookup q = some .directory)) ∧
    ∀ via D, s.files.Spelt s.cwd (Path.absolute s.cwd.path c.destination) via D →
      ∀ p ∈ c.packages, ∀ via' S, s.files.Spelt s.cwd p.sourceDir via' S →
        ∀ q, S <:+ q → t.files.lookup q = s.files.lookup q := by
  rcases Concurrent.run_outside hrun hinward with hsame | ⟨⟨real, hdest, hcheck⟩, D, hsite, hout⟩
  · exact ⟨fun q => .inl (by rw [hsame]), fun _ _ _ _ _ _ _ _ q _ => by rw [hsame]⟩
  refine ⟨fun q => ?_, fun via D' hD' p hp via' S hS q hq => ?_⟩
  · by_cases hq : D <:+ q
    · exact .inr ⟨D, hsite, .inl hq⟩
    · exact (hout q hq).imp_right fun h => ⟨D, hsite, .inr h⟩
  · rw [← FileSystem.startOf_of_isAbsolute (destination_plain s.cwd c.destination).1] at hsite
    obtain rfl := hD'.eq_of_site hsite
    obtain ⟨source, hsource, hoverlap⟩ := hcheck p hp
    obtain ⟨hDS, hSD⟩ := apart_of_check hdest hsource hoverlap hD' hS
    have hq' : ¬ D' <:+ q := fun hDq => (List.suffix_or_suffix_of_suffix hDq hq).elim hDS hSD
    exact (hout q hq').resolve_right fun h => hSD (hq.trans h.1)

/-- Nothing in the sources of the workshop changes while they are built, also where the name of a home leads up
again. -/
theorem run_confined_workshop :
    let b : Build :=
      { destination := "/w/out".toList
        manifestPath := "/w/out/dts-list.ts".toList
        entries := [Manifest.entry "a/../b".toList "d/x.d.ts".toList,
          Manifest.entry "c/e".toList "y.d.ts".toList] }
    let s' := (workshop.perform (run workshop.cwd.path (workshopBuild "a/../b".toList))).2
    Concurrent.run workshop.cwd.path (workshopBuild "a/../b".toList) workshop (.ok b) s' ∧
      (∀ r t p u, Concurrent.Scans (workshopBuild "a/../b".toList) workshop r t p u →
        ∀ rel ∈ declarations u p.sourceDir, Inward p.home rel) ∧
        ∀ r t, Concurrent.run workshop.cwd.path (workshopBuild "a/../b".toList) workshop r t →
          ∀ q, ["lib".toList] <:+ q ∨ ["own".toList, "w".toList] <:+ q →
            t.files.lookup q = workshop.files.lookup q := by
  intro b s'
  have hok : (workshop.perform (run workshop.cwd.path (workshopBuild "a/../b".toList))).1 = .ok b := by
    decide +kernel
  have hcourse : Concurrent.run workshop.cwd.path (workshopBuild "a/../b".toList) workshop (.ok b) s' :=
    Concurrent.run_allows _ _ _ _ _ (Prod.ext hok rfl)
  have hbase : Path.absolute workshop.cwd.path (workshopBuild "a/../b".toList).destination = "/w/out".toList := by
    decide
  have hout := workshop_spelt (n := "out".toList) (by decide) (by decide)
    (show Path.isAbsolute "/w/out".toList = true by decide) (by decide)
  have hown := workshop_spelt (n := "own".toList) (by decide) (by decide)
    (show Path.isAbsolute "/w/own".toList = true by decide) (by decide)
  have hsite : ∀ D, workshop.files.Site [] (pathNames "/w/out".toList) D → D = ["out".toList, "w".toList] := by
    intro D hD
    rw [← FileSystem.startOf_of_isAbsolute (show Path.isAbsolute "/w/out".toList = true by decide)] at hD
    exact (hout.eq_of_site hD).symm
  have hthere : ∀ p ∈ (workshopBuild "a/../b".toList).packages,
      workshop.files.isDirectory workshop.cwd p.sourceDir = true ∧
        ∀ rel ∈ declarations workshop p.sourceDir, Inward p.home rel := by
    decide +kernel
  have hinward : ∀ u, Underway workshop "/w/out".toList u →
      ∀ p ∈ (workshopBuild "a/../b".toList).packages, ∀ rel ∈ declarations u p.sourceDir,
        Inward p.home rel := by
    intro u hu p hp rel hrel
    obtain ⟨S, hS⟩ := workshop_apart p hp
    obtain ⟨S', hfound⟩ := FileSystem.isDirectory_eq_true_iff.1 (hthere p hp).1
    obtain ⟨via, hspelt, -⟩ := hS.spelt
    obtain rfl := hspelt.eq_of_found hfound
    exact (hthere p hp).2 rel (hu.declarations_subset hS hfound hsite hrel)
  have hscans : ∀ r t p u, Concurrent.Scans (workshopBuild "a/../b".toList) workshop r t p u →
      ∀ rel ∈ declarations u p.sourceDir, Inward p.home rel := fun r t p u h =>
    hinward u (hbase ▸ h.underway (hbase ▸ hinward)) p h.course.1
  refine ⟨hcourse, hscans, fun r t hrun q hq => ?_⟩
  have hsame := (run_confined hrun (hscans r t)).2 _ _ (hbase ▸ hout)
  rcases hq with hq | hq
  · exact hsame _ List.mem_cons_self _ _ workshop_spelt_src q hq
  · exact hsame _ (List.mem_cons_of_mem _ List.mem_cons_self) _ _ hown q hq

/-- The check of the destination does not see a home that leads back into a source, whose files are
then overwritten. -/
theorem run_overwrites_source :
    (oneFile.perform (run oneFile.cwd.path
      { destination := "out".toList
        packages := [{ home := "../src".toList, sourceDir := "src".toList }] })).2.files.lookup
        ["a.d.ts".toList, "src".toList] ≠
      oneFile.files.lookup ["a.d.ts".toList, "src".toList] := by
  decide +kernel

end Rehome.Build
