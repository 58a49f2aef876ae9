import Rehome.Proofs.Build.Concurrent
import Rehome.Proofs.Build.Copies

/-! What a build leaves that succeeds: the copies of all declaration files, the manifest of them, and
nothing else. -/

namespace Rehome.Build

open FileSystem (pathNames Elsewhere Confined Faded)
open Rehome.Path (IsPlain)

variable {s t u v : Host} {base : Text} {D S : Location} {outs : List Output}

/-! ### Keys -/

/-- The keys of the entries that are added are new, each of them. -/
theorem addEntries_ok {es more r : List Manifest.Entry}
    (h : u.perform (addEntries es more) = (.ok r, v)) (hes : (es.map (·.key)).Nodup) :
    v = u ∧ r = es ++ more ∧ (r.map (·.key)).Nodup := by
  induction more generalizing es with
  | nil =>
    cases h
    exact ⟨rfl, (List.append_nil _).symm, hes⟩
  | cons e more ih =>
    unfold addEntries at h
    split at h
    · cases h
    · next hnew =>
      have hes' : ((es ++ [e]).map (·.key)).Nodup := by
        rw [List.map_append, List.nodup_append]
        refine ⟨hes, List.nodup_singleton _, fun k hk k' hk' => ?_⟩
        rintro rfl
        exact hnew (by simpa [List.mem_singleton.1 hk'] using hk)
      obtain ⟨hv, rfl, hr⟩ := ih h hes'
      exact ⟨hv, by rw [List.append_assoc]; rfl, hr⟩

/-- The key of a copy spells its place. -/
theorem Copy.key_eq {c : Copy} (hc : c.names ≠ []) :
    c.entry.key = Path.ofSegments c.output.names := by
  show c.package.home ++ '/' :: Path.ofSegments c.names = _
  rw [Copy.output, Path.ofSegments_append (Path.segments_ne_nil _) hc, Path.ofSegments_segments]

/-! ### Package after package -/

/-- The copies of a package in a build from `s` to a destination at `D`. -/
def CopiesOf (s : Host) (D : Location) (p : Package) (cs : List Copy) : Prop :=
  ∃ S, SourceAt s D p.sourceDir S ∧ Copies s.files S p cs

theorem names_ne_nil_of_copiesOf {ps : List Package} {copies : List (List Copy)}
    (h : List.Forall₂ (CopiesOf s D) ps copies) : ∀ c ∈ copies.flatten, c.names ≠ [] := by
  induction h with
  | nil => simp
  | cons hcs _ ih =>
    obtain ⟨S, -, hcs⟩ := hcs
    intro c hc
    rw [List.flatten_cons, List.mem_append] at hc
    rcases hc with hc | hc
    · exact ((hcs.mem c).1 hc).2.ne_nil
    · exact ih c hc

/-! ### What stands in the destination -/

/-- The outputs, and the directories on the way to them, are all that stands at `D`. -/
def Holds (fs : FileSystem) (D : Location) (outs : List Output) : Prop :=
  ∀ q x, fs.lookup (q ++ D) = some x ↔ ∃ o ∈ outs,
    q = o.names.reverse ∧ x = .file (.text o.text) ∨
      q <:+ o.names.reverse ∧ q ≠ o.names.reverse ∧ x = .directory

theorem Stage.file_of_nodup (h : Stage s base D outs u) (hnodup : (outs.map Output.names).Nodup) :
    ∀ o ∈ outs, u.files.lookup (o.names.reverse ++ D) = some (.file (.text o.text)) := by
  intro o ho
  obtain ⟨before, after, rfl⟩ := List.append_of_mem ho
  refine h.file before o after rfl fun o' ho' he => ?_
  rw [List.map_append, List.map_cons, List.nodup_append, List.nodup_cons] at hnodup
  exact hnodup.2.1.1 (he ▸ List.mem_map_of_mem ho')

theorem Stage.holds {o : Output} (h : Stage s base D outs u) (ho : o ∈ outs)
    (hnodup : (outs.map Output.names).Nodup) : Holds u.files D outs := by
  have hfile := h.file_of_nodup hnodup
  have hdir : ∀ o ∈ outs, ∀ q, q <:+ o.names.reverse → q ≠ o.names.reverse →
      u.files.lookup (q ++ D) = some .directory := by
    intro o ho q hq hqne
    exact FileSystem.lookup_of_suffix (hfile o ho) (List.suffix_append_self_iff.2 hq)
      fun he => hqne (List.append_cancel_right he)
  intro q x
  constructor
  · intro hl
    obtain ⟨o, ho, hq⟩ : ∃ o ∈ outs, q <:+ o.names.reverse := by
      by_cases hnil : q = []
      · exact ⟨o, ho, hnil ▸ List.nil_suffix⟩
      · obtain ⟨o, ho, hq⟩ := h.inside (q ++ D) (List.suffix_append ..) (by simpa using hnil)
          (by simp [hl])
        exact ⟨o, ho, List.suffix_append_self_iff.1 hq⟩
    refine ⟨o, ho, ?_⟩
    by_cases he : q = o.names.reverse
    · rw [he, hfile o ho] at hl
      exact .inl ⟨he, (Option.some.inj hl).symm⟩
    · rw [hdir o ho q hq he] at hl
      exact .inr ⟨hq, he, (Option.some.inj hl).symm⟩
  · rintro ⟨o, ho, ⟨rfl, rfl⟩ | ⟨hq, he, rfl⟩⟩
    · exact hfile o ho
    · exact hdir o ho q hq he

/-! ### From the cleaning on -/

theorem faded_of_removed (hgone : s.files.Removed D t.files)
    (hcwd : t.cwd = t.files.withoutGone s.cwd) : Faded (Lost s D) s.cwd t.cwd := by
  rw [hcwd]
  refine FileSystem.faded_withoutGone s.cwd fun p hp hlost => ⟨hp, fun hdir => ?_⟩
  by_contra hD
  rw [hgone.outside p hD, hdir] at hlost
  exact hlost rfl

theorem since_of_removed (hfiles : t.files = (s.files.clear D).prune D)
    (hcwd : t.cwd = t.files.withoutGone s.cwd) :
    s.files.Removed D t.files ∧ Since s D t := by
  have hgone : s.files.Removed D t.files := hfiles ▸ FileSystem.removed_prune_clear s.files D
  exact ⟨hgone, ⟨hgone.linkFree, fun q hq => .inl (hgone.outside q hq)⟩,
    faded_of_removed hgone hcwd⟩

/-- From `s` to `t` the destination `base` was cleaned, whose site `D` is before and after. -/
structure Emptied (s : Host) (base : Text) (D : Location) (t : Host) : Prop where
  before : s.files.Site [] (pathNames base) D
  site : t.files.Site [] (pathNames base) D
  removed : s.files.Removed D t.files
  stood : s.files.lookup D = none ∨ s.files.lookup D = some .directory
  cwd : t.files = s.files ∧ t.cwd = s.cwd ∨ t.cwd = t.files.withoutGone s.cwd

theorem emptied_of_cleaned (hbase : ∀ n ∈ pathNames base, IsPlain n) (h : Cleaned s base (.ok ()) t)
    (hreach : t.WithinReach base) : ∃ D, Emptied s base D t := by
  obtain ⟨D', hsite, hD'⟩ := hreach
  cases h with
  | absent hno =>
    have hnone := hD'.resolve_right (by simp [hno])
    exact ⟨D', hsite, hsite, FileSystem.removed_of_none hnone, .inl hnone, .inl ⟨rfl, rfl⟩⟩
  | @removed _ D via via' hv hv' hfiles hcwd =>
    have hgone := (since_of_removed hfiles hcwd).1
    obtain rfl := hsite.eq_of_removed hbase hv' hgone
    exact ⟨D', hv.site, hsite, hgone, .inr (hv.lookup_eq rfl), .inr hcwd⟩

namespace Emptied

theorem lookup_inside (h : Emptied s base D t) {q : Location} (hq : D <:+ q) (hne : q ≠ D) :
    t.files.lookup q = none := by
  refine h.removed.inside q hq ?_
  rintro rfl
  exact hne (List.suffix_nil.1 hq).symm

theorem cwd_eq (h : Emptied s base D t) (hcwd : s.files.lookup s.cwd = some .directory) :
    t.cwd = t.files.withoutGone s.cwd := by
  rcases h.cwd with ⟨hfiles, he⟩ | he
  · rw [he, hfiles, FileSystem.withoutGone_eq_self hcwd]
  · exact he

/-- Once it is clean, a destination is ready to be filled. -/
theorem stage (h : Emptied s base D t) : Stage s base D [] t := by
  have hfaded : Faded (Lost s D) s.cwd t.cwd := by
    rcases h.cwd with ⟨-, hcwd⟩ | hcwd
    · rw [hcwd]
      exact .refl _
    · exact faded_of_removed h.removed hcwd
  refine ⟨{ linkFree := h.removed.linkFree, outside := fun q hq => .inl (h.removed.outside q hq),
            site := h.site }, hfaded, by simp, fun q hq hne hl => ?_⟩
  exact absurd (h.lookup_inside hq hne) hl

end Emptied

/-- Once it is clean, a destination within reach is ready to be filled. -/
theorem stage_of_cleaned (hbase : ∀ n ∈ pathNames base, IsPlain n) (h : Cleaned s base (.ok ()) t)
    (hreach : t.WithinReach base) : ∃ D, s.files.Site [] (pathNames base) D ∧ Stage s base D [] t := by
  obtain ⟨D, h⟩ := emptied_of_cleaned hbase h hreach
  exact ⟨D, h.before, h.stage⟩

/-- After the cleaning, too, the declaration files of the sources have plain places. -/
theorem inward_of_cleaned {ps : List Package} (h : Cleaned s base (.ok ()) t)
    (hsite : ∀ D', s.files.Site [] (pathNames base) D' → D = D')
    (hhome : ∀ p ∈ ps, ∀ n ∈ Path.segments p.home, IsPlain n)
    (hS : ∀ p ∈ ps, ∃ S, Apart s D p.sourceDir S) :
    ∀ p ∈ ps, ∀ rel ∈ declarations t p.sourceDir, Inward p.home rel := by
  intro p hp
  obtain ⟨S, hS⟩ := hS p hp
  cases h with
  | absent => exact hS.toSourceAt.inward (hhome p hp)
  | removed hv _ hfiles hcwd =>
    obtain rfl := hsite _ hv.site
    exact (since_of_removed hfiles hcwd).2.inward hS (hhome p hp)

/-! ### Builds that succeed -/

/-- The manifest of a build among its outputs. -/
def manifestOutput (c : Settings) (b : Build) : Output := ⟨[c.manifestName], Manifest.render b.entries⟩

/-- A build from `s` to `base`, which leads to `D`, has made these copies, package after package. Their
entries have different keys. With the manifest the copies are all that is left at `D`, and elsewhere
nothing has changed but that directories were made that were missing on the way there. -/
structure Published (s : Host) (base : Text) (D : Location) (c : Settings) (copies : List (List Copy))
    (b : Build) (fs : FileSystem) : Prop where
  complete : List.Forall₂ (CopiesOf s D) c.packages copies
  destination : b.destination = base
  manifestPath : b.manifestPath = Path.join base c.manifestName
  entries : b.entries = copies.flatten.map Copy.entry
  keys : (b.entries.map (·.key)).Nodup
  holds : Holds fs D (copies.flatten.map Copy.output ++ [manifestOutput c b])
  outside : ∀ q, ¬ D <:+ q → fs.lookup q = s.files.lookup q ∨
    q <:+ D ∧ s.files.lookup q = none ∧ fs.lookup q = some .directory

/-- The copies and the manifest have different places. -/
theorem nodup_output_names {cs : List Copy} {name t : Text} (hcs : ∀ c ∈ cs, c.names ≠ [])
    (hkeys : ((cs.map Copy.entry).map (·.key)).Nodup) :
    ((cs.map Copy.output ++ [(⟨[name], t⟩ : Output)]).map Output.names).Nodup := by
  have hspelt : (cs.map Copy.entry).map (·.key) =
      ((cs.map Copy.output).map Output.names).map Path.ofSegments := by
    rw [List.map_map, List.map_map, List.map_map]
    exact List.map_congr_left fun c hc => Copy.key_eq (hcs c hc)
  rw [hspelt] at hkeys
  rw [List.map_append, List.nodup_append]
  refine ⟨hkeys.of_map, List.nodup_singleton _, fun ns hns ns' hns' => ?_⟩
  rintro rfl
  obtain ⟨o, ho, rfl⟩ := List.mem_map.1 hns
  obtain ⟨c, hc, rfl⟩ := List.mem_map.1 ho
  have hlen : (Path.segments c.package.home ++ c.names).length = 1 :=
    congrArg List.length (List.mem_singleton.1 hns')
  rw [List.length_append] at hlen
  have hhome := List.length_pos_iff.2 (Path.segments_ne_nil c.package.home)
  have hnames := List.length_pos_iff.2 (hcs c hc)
  omega

/-! ### Sources that pass -/

theorem workshop_sources {home : Text} : ∀ p ∈ (workshopBuild home).packages,
    ∃ S, SourceAt workshop ["out".toList, "w".toList] p.sourceDir S := by
  have hnames : ∀ e ∈ workshop.files.entries, ∀ n ∈ e.1, '\\' ∉ n := by decide +kernel
  have hback : ∀ S, S ≠ [] → ∀ (names : List Text) x,
      workshop.files.lookup (names.reverse ++ S) = some x → ∀ n ∈ names, '\\' ∉ n := by
    intro S hS names x hl n hn
    have hne : names.reverse ++ S ≠ [] := List.append_ne_nil_of_right_ne_nil _ hS
    exact hnames _ ((FileSystem.lookup_eq_some hne).1 hl) n
      (List.mem_append_left _ (List.mem_reverse.2 hn))
  have hown := workshop_spelt (n := "own".toList) (by decide) (by decide)
    (show Path.isAbsolute "/w/own".toList = true by decide) (by decide)
  intro p hp
  rcases List.mem_cons.1 hp with rfl | hp
  · refine ⟨["lib".toList], ⟨_, workshop_spelt_src, ?_⟩, fun q t hq h => ?_, hback _ (by decide)⟩
    · exact List.forall_mem_singleton.2 (by decide)
    · rw [workshop_link h] at hq
      exact absurd hq (by decide)
  · obtain rfl := List.mem_singleton.1 hp
    refine ⟨["own".toList, "w".toList], ⟨[], hown, by simp⟩, fun q t hq h => ?_, hback _ (by decide)⟩
    rw [workshop_link h] at hq
    exact absurd hq (by decide)

/-- The sources of the workshop pass the check. -/
theorem workshop_apart {home : Text} : ∀ p ∈ (workshopBuild home).packages,
    ∃ S, Apart workshop ["out".toList, "w".toList] p.sourceDir S := by
  have hout := workshop_spelt (n := "out".toList) (by decide) (by decide)
    (show Path.isAbsolute "/w/out".toList = true by decide) (by decide)
  have hcheck : (workshop.perform (checkDestination (workshopBuild "a".toList).packages "/w/out".toList
      "dts-list.ts".toList)).1 = .ok () := by
    decide +kernel
  obtain ⟨-, real, hreal, hsources⟩ := checkDestination_ok (Prod.ext hcheck rfl)
  have hsame : ∀ p ∈ (workshopBuild home).packages, ∃ q ∈ (workshopBuild "a".toList).packages,
      q.sourceDir = p.sourceDir := by
    simp [workshopBuild]
  intro p hp
  obtain ⟨S, hS⟩ := workshop_sources p hp
  obtain ⟨q, hq, he⟩ := hsame p hp
  obtain ⟨source, hsource, hoverlap⟩ := hsources q hq
  exact ⟨S, hS.apart hout hreal (he ▸ hsource) hoverlap⟩

end Rehome.Build
