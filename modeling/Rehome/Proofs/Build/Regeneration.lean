import Rehome.Proofs.Build.Courses
import Rehome.Proofs.FileSystem.Passage

/-! Builds that are done again. Whatever stands in the destination by then, and whatever the timing of the workers
is, they give what they gave. -/

namespace Rehome.Build

open FileSystem (pathNames startOf Passage)
open Rehome.Path (IsPlain)

variable {s s' t t' u v : Host} {base : Text} {D : Location} {c : Settings} {b : Build}
  {ps : List Package} {rest : List Text} {p : Location}

/-! ### Where a build succeeds -/

/-- The way to the destination of a build that succeeds can be passed once the destination is empty. -/
theorem passage_of_fill (habs : Path.isAbsolute base = true) (hbase : ∀ n ∈ pathNames base, IsPlain n)
    (hname : Manifest.isPlainName c.manifestName = true)
    (hhome : ∀ p ∈ c.packages, ∀ n ∈ Path.segments p.home, IsPlain n)
    (hS : ∀ p ∈ c.packages, ∃ S, Apart s D p.sourceDir S) (h : Emptied s base D t)
    (hfill : Concurrent.fill base c t (.ok b) v) :
    '\x00' ∉ base ∧ ∃ rest p, t.files.Passage base rest p ∧ rest.reverse ++ p = D := by
  obtain ⟨_, u, w, -, -, -, hu, hwrite, -⟩ := Concurrent.fill_copies habs hbase hhome hS h.stage hfill
  have hpath := below_manifest habs hname
  have hplain := hpath.isPlain hbase (List.forall_mem_singleton.2 (isPlain_of_isPlainName hname))
  have hne : base ≠ [] := by
    rintro rfl
    cases habs
  obtain ⟨⟨⟩, x, hmake, hrest⟩ := Host.perform_bind_ok hwrite
  obtain ⟨q, y, hcreate, -⟩ := Host.perform_bind_ok hrest
  obtain ⟨-, hx, -⟩ := makeDirectories_parent hpath hplain hu.confined
  rw [hmake] at hx
  obtain ⟨hnul, D', hfound⟩ :=
    Host.found_of_create hcreate hpath.text hne hpath.names hpath.ne_nil
  obtain ⟨via, -, hv⟩ := FileSystem.leads_of_find hfound
  rw [FileSystem.startOf_of_isAbsolute habs] at hv
  obtain rfl := hx.site.unique hv.site
  refine ⟨fun hc => hnul (hpath.text.subset hc), Passage.of_found habs ?_ h.site hfound fun hdir => ?_⟩
  · exact h.removed.extends fun q hq => (hx.outside q hq).symm.imp_left fun hr => hr.2.1
  -- Only the root is there although it was removed.
  · have hroot : D = [] := by
      by_contra hne
      rw [h.removed.inside D List.suffix_rfl hne] at hdir
      cases hdir
    subst hroot
    obtain ⟨via', hv'⟩ := h.site.leads (by simp)
    rcases hnames : pathNames base with _ | ⟨n, ns⟩
    · rfl
    · rw [hnames] at hv' hbase
      exact absurd (h.removed.inside [n] List.nil_suffix (List.cons_ne_nil n []))
        (hv'.ne_none (hbase n List.mem_cons_self))

/-! ### Cleaning again -/

section Clean

variable (hout : s.files.Outside D u.files)
include hout

/-- What is left when the destination is empty stands on the other host, too. -/
theorem Emptied.extends (h : Emptied s base D t) {fs : FileSystem}
    (hfs : ∀ q, ¬ D <:+ q → fs.lookup q = u.files.lookup q) : t.files.Extends fs :=
  h.removed.extends fun q hq => (hout q hq).symm.imp (fun hr => hr.2.1) fun he => (hfs q hq).trans he

/-- The destination is cleaned again. -/
theorem emptied_again (hstands : u.files.lookup D = none ∨ u.files.lookup D = some .directory)
    (h : Emptied s base D t) (hplain : ∀ n ∈ pathNames base, IsPlain n) (hnul : '\x00' ∉ base)
    (hpass : t.files.Passage base rest p) (hD : rest.reverse ++ p = D) :
    ∃ t', u.perform (cleanDestination base) = (.ok (), t') ∧ Emptied u base D t' := by
  subst hD
  have hway : ∀ q, q <:+ rest.reverse ++ p →
      u.files.lookup q = none ∨ u.files.lookup q = some .directory := fun q hq =>
    hout.on_way h.before hstands hq
  have hpass' := hpass.of_extends (h.extends hout fun _ _ => rfl)
  have hsite := hpass'.site hway
  have hdir : u.files.isDirectory u.cwd base = true ↔
      u.files.lookup (rest.reverse ++ p) = some .directory := hpass'.isDirectory_eq_true_iff hway
  unfold cleanDestination
  rw [Host.perform_bind, Host.perform_isDirectory]
  dsimp only
  rcases hstands with hnone | hthere
  · rw [if_neg (by rw [hdir, hnone]; simp)]
    exact ⟨u, rfl, hsite, hsite, FileSystem.removed_of_none hnone, .inl hnone, .inl ⟨rfl, rfl⟩⟩
  rw [if_pos (hdir.2 hthere), Host.perform_bind, Host.perform_log]
  dsimp only
  have hclear : (u.files.clear (rest.reverse ++ p)).Passage base rest p :=
    hpass.of_extends (h.extends hout fun _ hq => FileSystem.lookup_clear_of_not_suffix hq)
  have hgone := FileSystem.removed_prune_clear u.files (rest.reverse ++ p)
  have hremove : ∀ l, ∃ t', ({ u with log := l } : Host).perform (Action.removeTree base) = (.ok (), t') ∧
      t'.files = (u.files.clear (rest.reverse ++ p)).prune (rest.reverse ++ p) ∧
      t'.cwd = t'.files.withoutGone u.cwd := fun l => by
    rw [Host.perform_removeTree, Host.removeTree, if_neg hnul]
    dsimp only
    rw [Passage.removeTree hplain hclear hthere]
    exact ⟨_, rfl, rfl, rfl⟩
  obtain ⟨t', ht', hfiles, hcwd⟩ := hremove _
  rw [← hfiles] at hgone
  refine ⟨t', ht', hsite, (hpass.of_extends (h.extends hout hgone.outside)).site fun q hq => ?_, hgone,
    .inr hthere, .inr hcwd⟩
  by_cases hin : rest.reverse ++ p <:+ q
  · rw [hgone.lookup_of_suffix hin]
    split <;> simp
  · rw [hgone.outside q hin]
    exact hway q hq

end Clean

/-- Two hosts whose destination was cleaned are alike. -/
theorem alike_of_emptied (hout : s.files.Outside D u.files) (h : Emptied s base D t)
    (h' : Emptied u base D t') (hcwd : u.cwd = s.cwd)
    (hrelative : ∀ p ∈ ps, Path.isAbsolute p.sourceDir = false →
      s.files.lookup s.cwd = some .directory ∧ u.files.lookup s.cwd = some .directory) :
    Alike s t'.files base D ps t t' := by
  have hin : ∀ q, D <:+ q → t'.files.lookup q = t.files.lookup q := fun q hq => by
    rw [h'.removed.lookup_of_suffix hq, h.removed.lookup_of_suffix hq]
  have hout' : t.files.Outside D t'.files := fun q hq => by
    rw [h.removed.outside q hq, h'.removed.outside q hq]
    exact hout q hq
  refine ⟨h.stage.confined, h.stage.faded, .refl h'.site h'.removed.linkFree, hout'.ahead hin,
    fun p hp habs => ?_⟩
  obtain ⟨hs, hu⟩ := hrelative p hp habs
  rw [h.cwd_eq hs, h'.cwd_eq (hcwd ▸ hu), hcwd]
  refine FileSystem.withoutGone_congr fun q hq => ?_
  by_cases hD : D <:+ q
  · rw [hin q hD]
  · rw [h.removed.outside q hD, h'.removed.outside q hD,
      FileSystem.lookup_directory_of_suffix hs hq, FileSystem.lookup_directory_of_suffix hu hq]

/-! ### Checking again -/

section Check

variable {via : List Location} (hout : s.files.Outside D u.files)
include hout

/-- The destination is still spelt by way of the same links. -/
theorem spelt_again (hstands : u.files.lookup D = none ∨ u.files.lookup D = some .directory)
    (h : Emptied s base D t) (hpass : t.files.Passage base rest p) (hD : rest.reverse ++ p = D)
    (hdest : s.files.Spelt s.cwd base via D) : u.files.Spelt s.cwd base via D := by
  have hstart : startOf s.cwd base = [] := FileSystem.startOf_of_isAbsolute hpass.isAbsolute
  -- The links on the way are still there when the destination is empty.
  have hlinks : ∀ l, (∃ target, t.files.lookup l = some (.link target)) → ¬ D <:+ l :=
    fun l ⟨target, hl⟩ hin => h.removed.linkFree l target hin hl
  have hno : ∀ fs : FileSystem, (∀ q, q <:+ D → fs.lookup q = none ∨ fs.lookup q = some .directory) →
      ∀ q, q <:+ rest.reverse ++ p → ∀ target, fs.lookup q ≠ some (.link target) := by
    intro fs hfs q hq target
    rcases hfs q (hD ▸ hq) with hl | hl <;> simp [hl]
  have hfirst : t.files.Extends s.files := h.removed.extends fun _ _ => .inr rfl
  obtain ⟨via₁, ht₁, hvia₁⟩ := hpass.traces hfirst (hno _ fun q hq => h.before.on_way hq)
  obtain ⟨via₂, ht₂, hvia₂⟩ := hpass.traces (h.extends hout fun _ _ => rfl)
    (hno _ fun q hq => hout.on_way h.before hstands hq)
  have ht := hdest.traces
  rw [hstart] at ht
  obtain ⟨rfl, -⟩ := ht.deterministic ht₁
  rw [← hstart] at ht₂
  exact hdest.transfer hout (fun l hl => hlinks l (hvia₁ l hl)) ht₂ fun l hl => hlinks l (hvia₂ l hl)

/-- A source that has passed is still there, as long as it is not reached by links inside. -/
theorem Apart.sourceAt_again {dir : Text} {S S' : Location} (hS : Apart s D dir S) (hcwd : u.cwd = s.cwd)
    (ht : u.files.Traces (startOf u.cwd dir) (pathNames dir) via S') (hvia : ∀ l ∈ via, ¬ D <:+ l) :
    SourceAt u D dir S := by
  have hsame : ∀ q, S <:+ q → u.files.lookup q = s.files.lookup q := fun q hq =>
    hout.lookup_eq_of_apart hS.above hS.below hq
  obtain ⟨via', hspelt, hvia'⟩ := hS.spelt
  rw [← hcwd] at hspelt
  refine ⟨⟨via', hspelt.transfer hout hvia' ht hvia, hvia'⟩, fun q l hq => ?_, fun names x => ?_⟩
  · rw [hsame q hq]
    exact hS.linkFree q l hq
  · rw [hsame _ (List.suffix_append ..)]
    exact hS.noBackslash names x

end Check

/-- A destination that has passed passes again. -/
theorem check_again {via : List Location} (habs : Path.isAbsolute base = true)
    (hname : Manifest.isPlainName c.manifestName = true) (hdest : u.files.Spelt u.cwd base via D)
    (hsource : ∀ p ∈ c.packages, ∃ S, Apart s D p.sourceDir S ∧ SourceAt u D p.sourceDir S)
    (hrelative : ∀ p ∈ c.packages, Path.isAbsolute p.sourceDir = false →
      u.files.lookup u.cwd = some .directory) :
    u.perform (checkDestination c.packages base c.manifestName) = (.ok (), u) := by
  have hbase : Path.isAbsolute base = false → u.files.lookup u.cwd = some .directory := by simp [habs]
  refine perform_checkDestination hname (Host.realPath_of_spelt hdest hbase) fun p hp => ?_
  obtain ⟨S, hS, ⟨via', hspelt, -⟩, -, -⟩ := hsource p hp
  refine ⟨S.path, Host.realPath_of_spelt hspelt (hrelative p hp), ?_⟩
  rw [Path.overlaps?_path (hdest.isPlain hbase) (hspelt.isPlain (hrelative p hp))]
  simp [hS.above, hS.below]

/-! ### Whole builds -/

/-- A host on which the build from `s` that left `s'` is done again. Outside `D` everything stands as it
stood before or after that build, and at `D` there is a directory or nothing. The sources are reached by
no link at `D` or inside, and from the working directory only if it is there. -/
structure Again (s s' : Host) (D : Location) (ps : List Package) (u : Host) : Prop where
  cwd : u.cwd = s.cwd
  outside : (∀ q, ¬ D <:+ q → u.files.lookup q = s.files.lookup q) ∨
    ∀ q, ¬ D <:+ q → u.files.lookup q = s'.files.lookup q
  stands : u.files.lookup D = none ∨ u.files.lookup D = some .directory
  source : ∀ p ∈ ps, ∃ via S,
    u.files.Traces (startOf u.cwd p.sourceDir) (pathNames p.sourceDir) via S ∧ ∀ l ∈ via, ¬ D <:+ l
  workingDirectory : ∀ p ∈ ps, Path.isAbsolute p.sourceDir = false →
    u.files.lookup u.cwd = some .directory

namespace Again

variable {ps : List Package} (h : Again s s' D ps u)
include h

/-- Nothing outside was changed by the first build or since, but for directories that were missing. -/
theorem outside_first (hfirst : s.files.Outside D s'.files) : s.files.Outside D u.files := by
  intro q hq
  rcases h.outside with hsame | hsame
  · exact .inl (hsame q hq)
  · rw [hsame q hq]
    exact hfirst q hq

/-- The sources are where they were. -/
theorem source_again (hout : s.files.Outside D u.files) (hS : ∀ p ∈ ps, ∃ S, Apart s D p.sourceDir S) :
    ∀ p ∈ ps, ∃ S, Apart s D p.sourceDir S ∧ SourceAt u D p.sourceDir S := by
  intro p hp
  obtain ⟨S, hS⟩ := hS p hp
  obtain ⟨_, _, ht, hvia⟩ := h.source p hp
  exact ⟨S, hS, hS.sourceAt_again hout h.cwd ht hvia⟩

end Again

/-- A build that is done again, whatever stands in its destination by then and whatever the timing of the workers
is, gives what it gave and leaves the same there. The sources hold neither links nor names with a backslash and
are never reached by links inside the destination, and no link on the way to them or to the destination is too far
away for the check. -/
theorem run_reproduces {via : List Location} (hrun : Concurrent.run s.cwd.path c s (.ok b) s')
    (hhome : ∀ p ∈ c.packages, ∀ n ∈ Path.segments p.home, IsPlain n)
    (hdest : s.files.Spelt s.cwd (Path.absolute s.cwd.path c.destination) via D)
    (hsource : ∀ p ∈ c.packages, ∃ S, SourceAt s D p.sourceDir S)
    (hagain : Again s s' D c.packages u) :
    (∃ u', Concurrent.run u.cwd.path c u (.ok b) u') ∧
      ∀ r u', Concurrent.run u.cwd.path c u r u' →
        r = .ok b ∧ ∀ q, D <:+ q → u'.files.lookup q = s'.files.lookup q := by
  obtain ⟨habs, hplain⟩ := destination_plain s.cwd c.destination
  obtain ⟨hcheck, hapart, t, -, hempty, hfill⟩ := Concurrent.run_steps hrun hhome hdest hsource
  obtain ⟨hname, -⟩ := checkDestination_ok hcheck
  have hbase : Path.absolute u.cwd.path c.destination = Path.absolute s.cwd.path c.destination := by
    rw [hagain.cwd]
  -- To copy one file after the other is a course, so this is how the first build may have gone.
  obtain ⟨r, v, hfirst⟩ : ∃ r v, t.perform (fill (Path.absolute s.cwd.path c.destination) c) = (r, v) :=
    ⟨_, _, rfl⟩
  obtain ⟨rfl, hv⟩ := Concurrent.fill_agrees habs hplain hname hhome hapart (.inl rfl) hempty.stage hfill
    (Concurrent.fill_allows _ _ _ _ _ hfirst)
  generalize Path.absolute s.cwd.path c.destination = base at *
  obtain ⟨_, hpub⟩ := Concurrent.fill_ok habs hplain hname hhome hapart hempty.stage hfill
  obtain ⟨hnul, rest, p, hpass, hD⟩ := passage_of_fill habs hplain hname hhome hapart hempty hfill
  have hout := hagain.outside_first hpub.outside
  have hspelt := spelt_again hout hagain.stands hempty hpass hD hdest
  rw [← hagain.cwd] at hspelt
  have hsource' := hagain.source_again hout hapart
  have hcheck' := check_again habs hname hspelt hsource' hagain.workingDirectory
  obtain ⟨t', hclean', hempty'⟩ := emptied_again hout hagain.stands hempty hplain hnul hpass hD
  have halike : Alike s t'.files base D c.packages t t' := by
    refine alike_of_emptied hout hempty hempty' hagain.cwd fun p hp hrel => ⟨?_, ?_⟩
    · obtain ⟨S, hS⟩ := hapart p hp
      exact hS.workingDirectory hrel
    · exact hagain.cwd ▸ hagain.workingDirectory p hp hrel
  obtain ⟨-, v', hfill', halike'⟩ := fill_repeats habs hplain hname hhome hapart t t' b v halike hfirst
  have hrun' : u.perform (run u.cwd.path c) = (.ok b, v') := by
    rw [run_eq, hbase, Host.perform_bind, hcheck']
    dsimp only
    rw [Host.perform_bind, hclean']
    exact hfill'
  have hcourse' := Concurrent.run_allows u.cwd.path c u _ _ hrun'
  refine ⟨⟨v', hcourse'⟩, fun r u' hcourse => ?_⟩
  obtain ⟨rfl, hsame⟩ := Concurrent.run_agrees hcourse' hhome (hbase ▸ hspelt)
    (fun p hp => (hsource' p hp).imp fun _ hS => hS.2) (.inl rfl) hcourse
  refine ⟨rfl, fun q hq => ?_⟩
  rw [hsame.lookup q, halike'.ahead.inside hq, hv.lookup q]

/-- The workshop with a link to one of the sources among what was built before. -/
def cluttered : Host where
  files := workshop.files.put ["out".toList, "w".toList] "k".toList (.link "../own".toList)
  cwd := workshop.cwd
  log := []

theorem again_cluttered : Again workshop
    (workshop.perform (run workshop.cwd.path (workshopBuild "a".toList))).2 ["out".toList, "w".toList]
    (workshopBuild "a".toList).packages cluttered := by
  have hdir : ∀ q ∈ [["lib".toList], ["w".toList], ["own".toList, "w".toList]],
      cluttered.files.lookup q = some .directory := by
    decide +kernel
  have hno : ∀ q ∈ [["lib".toList], ["w".toList], ["own".toList, "w".toList]],
      ∀ t, cluttered.files.lookup q ≠ some (.link t) := fun q hq t => by
    rw [hdir q hq]
    simp
  refine ⟨rfl, .inl fun q hq => ?_, .inr (by decide +kernel), fun p hp => ?_, fun _ _ _ => ?_⟩
  · refine FileSystem.lookup_put_of_ne fun he => hq ?_
    rw [he]
    exact List.suffix_cons ..
  · rcases List.mem_cons.1 hp with rfl | hp
    · have hlink : cluttered.files.lookup ["src".toList, "w".toList] =
          some (.link "../lib".toList) := by
        decide +kernel
      refine ⟨[["src".toList, "w".toList]], ["lib".toList], ?_, by decide⟩
      exact .link (by decide) (by decide) hlink
        (.up (.down (by decide) (by decide) (hno _ (by decide)) (.nil _)))
    · obtain rfl := List.mem_singleton.1 hp
      refine ⟨[], ["own".toList, "w".toList], ?_, by simp⟩
      exact .down (by decide) (by decide) (hno _ (by decide))
        (.down (by decide) (by decide) (hno _ (by decide)) (.nil _))
  · exact hdir _ (by decide)

theorem run_reproduces_cluttered :
    let b : Build :=
      { destination := "/w/out".toList
        manifestPath := "/w/out/dts-list.ts".toList
        entries := [Manifest.entry "a".toList "d/x.d.ts".toList,
          Manifest.entry "c/e".toList "y.d.ts".toList] }
    let s' := (workshop.perform (run workshop.cwd.path (workshopBuild "a".toList))).2
    Concurrent.run workshop.cwd.path (workshopBuild "a".toList) workshop (.ok b) s' ∧
      ∀ r u', Concurrent.run cluttered.cwd.path (workshopBuild "a".toList) cluttered r u' →
        r = .ok b ∧ ∀ q, ["out".toList, "w".toList] <:+ q → u'.files.lookup q = s'.files.lookup q := by
  intro b s'
  have hrun : (workshop.perform (run workshop.cwd.path (workshopBuild "a".toList))).1 = .ok b := by
    decide +kernel
  have hcourse : Concurrent.run workshop.cwd.path (workshopBuild "a".toList) workshop (.ok b) s' :=
    Concurrent.run_allows _ _ _ _ _ (Prod.ext hrun rfl)
  have hout := workshop_spelt (n := "out".toList) (by decide) (by decide)
    (show Path.isAbsolute (Path.absolute workshop.cwd.path "out".toList) = true by decide) (by decide)
  exact ⟨hcourse, (run_reproduces hcourse (by decide) hout workshop_sources again_cluttered).2⟩

/-- Two sources and no directory `out`. -/
def forked : Host where
  files :=
    (((FileSystem.empty.put [] "pa".toList .directory).put
      ["pa".toList] "x.d.ts".toList (.file (.text []))).put
      [] "src".toList .directory).put
      ["src".toList] "y.d.ts".toList (.file (.text []))
  cwd := []
  log := []

/-- The same with a link in a directory `out`. -/
def misled : Host where
  files := (forked.files.put [] "out".toList .directory).put ["out".toList] "k".toList
    (.link "d/e".toList)
  cwd := []
  log := []

/-- The second source is seen from where the copies of the first come. -/
def throughCopies : Settings where
  destination := "out".toList
  packages := [{ home := "k".toList, sourceDir := "pa".toList },
    { home := "b".toList, sourceDir := "out/k/../../src".toList }]

/-- The second package is copied from where the copies of the first come. Its backslashes read as slashes,
the path of the only one leads from the home of the second package back to the first source. -/
def overFarLink : Settings where
  destination := "out".toList
  packages := [{ home := "d/..\\..\\pa".toList, sourceDir := "pa".toList },
    { home := "b".toList, sourceDir := "l/k".toList }]

/-- A program that works in the directory `out/d`, beside an empty directory `pa`. -/
def indoors : Host where
  files :=
    ((FileSystem.empty.put [] "pa".toList .directory).put
      [] "out".toList .directory).put
      ["out".toList] "d".toList .directory
  cwd := ["d".toList, "out".toList]
  log := []

def fromInside : Settings where
  destination := "/out".toList
  packages := [{ home := "a".toList, sourceDir := "../../pa".toList }]

/-- What stands in the destination makes a difference where a source is reached by a link inside, which an
earlier build may have left there or may have taken away, by a link that is too far away for the check, or
from a working directory that was removed with the destination. -/
theorem run_depends_on_leftovers :
    ((∀ q, ¬ ["out".toList] <:+ q → misled.files.lookup q = forked.files.lookup q) ∧
      (forked.perform (run forked.cwd.path throughCopies)).1 = .ok
        { destination := "/out".toList
          manifestPath := "/out/dts-list.ts".toList
          entries := [Manifest.entry "k".toList "x.d.ts".toList,
            Manifest.entry "b".toList "y.d.ts".toList] } ∧
      (misled.perform (run misled.cwd.path throughCopies)).1 = .error
        (.overlap "/out".toList { home := "b".toList, sourceDir := "out/k/../../src".toList })) ∧
    (let s' := (linked.perform (run linked.cwd.path throughLink)).2
     (linked.perform (run linked.cwd.path throughLink)).1 = .ok
        { destination := "/out".toList
          manifestPath := "/out/dts-list.ts".toList
          entries := [Manifest.entry "a".toList "d/x.d.ts".toList,
            Manifest.entry "b".toList "x.d.ts".toList] } ∧
      (s'.perform (run s'.cwd.path throughLink)).1 = .error
        (.overlap "/out".toList { home := "b".toList, sourceDir := "out/a/d".toList })) ∧
    (let s' := (linkedFar.perform (run linkedFar.cwd.path overFarLink)).2
     (linkedFar.perform (run linkedFar.cwd.path overFarLink)).1 = .ok
        { destination := "/out".toList
          manifestPath := "/out/dts-list.ts".toList
          entries := [Manifest.entry "d/..\\..\\pa".toList "x.d.ts".toList,
            Manifest.entry "b".toList "../../pa/x.d.ts".toList] } ∧
      (s'.perform (run s'.cwd.path overFarLink)).2.files.lookup
          ["x.d.ts".toList, "..\\..\\pa".toList, "d".toList, "out".toList] ≠
        s'.files.lookup ["x.d.ts".toList, "..\\..\\pa".toList, "d".toList, "out".toList]) ∧
    let s' := (indoors.perform (run indoors.cwd.path fromInside)).2
    (indoors.perform (run indoors.cwd.path fromInside)).1 = .ok
        { destination := "/out".toList
          manifestPath := "/out/dts-list.ts".toList
          entries := [] } ∧
      (s'.perform (run indoors.cwd.path fromInside)).1 = .error .noWorkingDirectory := by
  refine ⟨⟨fun q hq => ?_, by decide +kernel⟩, by decide +kernel⟩
  have hne : q ≠ ["k".toList, "out".toList] ∧ q ≠ ["out".toList] := by
    constructor <;> rintro rfl <;> exact hq (by decide)
  exact (FileSystem.lookup_put_of_ne hne.1).trans (FileSystem.lookup_put_of_ne hne.2)

end Rehome.Build
