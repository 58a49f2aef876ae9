import Rehome.Proofs.Build.Concurrent
import Rehome.Proofs.Build.Layout
import Rehome.Proofs.Build.ModuleNames

/-! The timing of workers. Where the files of a package can be copied one after the other, they can be copied
at the same time, in whatever order the single calls come, and the result is the same. -/

namespace Rehome.Build

open FileSystem (pathNames startOf)
open Rehome.Path (IsPlain)

variable {s s' t : Host} {base : Text} {workers : Int} {p : Package} {es : List Manifest.Entry}

/-- A package that is built has its files copied, in the order of their paths. -/
theorem buildPackage_transfers {P : List Text → Prop} (hback : ∀ names, P names → ∀ n ∈ names, '\\' ∉ n)
    (hrels : ∀ rel ∈ declarations s p.sourceDir, ∃ names, P names ∧ Path.ofSegments names = rel)
    (h : s.perform (buildPackage base workers p) = (.ok es, s')) :
    ∃ cs : List Copy, s.perform (scan p.sourceDir) = (.ok (cs.map Copy.rel), s) ∧ 1 ≤ workers ∧
      (∀ c ∈ cs, c.package = p ∧ P c.names) ∧ es = cs.map Copy.entry ∧ Transfers base s cs s' := by
  rw [Concurrent.buildPackage_eq] at h
  obtain ⟨rels, u, hannounce, h⟩ := Host.perform_bind_ok h
  obtain ⟨ds, v, hmap, hpure⟩ := Host.perform_bind_ok h
  cases hpure
  obtain ⟨rels', u', hscan, -⟩ := Host.perform_bind_ok hannounce
  obtain ⟨rfl, -, hsort⟩ := scan_eq_sort hscan
  rw [perform_announce hscan] at hannounce
  split at hannounce
  · cases hannounce
  next hworkers =>
  cases hannounce
  obtain ⟨cs, rfl, hcs, hds, htransfers⟩ := mapM_prepare_transfers hback
    (fun rel hrel => hrels rel (Text.mem_sort.1 (hsort ▸ hrel))) hmap
  exact ⟨cs, hscan, by omega, hcs, hds, htransfers.of_eq rfl rfl⟩

/-- The files of a package are copied as its copies tell. -/
theorem map_prepare {cs : List Copy} (hpackage : ∀ c ∈ cs, c.package = p) :
    (cs.map Copy.rel).map (prepare p base) = cs.map fun c => prepare c.package base c.rel := by
  rw [List.map_map]
  refine List.map_congr_left fun c hc => ?_
  rw [hpackage c hc]
  rfl

theorem nodup_places {cs : List Copy} {D : Location} (hpackage : ∀ c ∈ cs, c.package = p)
    (h : (cs.map Copy.rel).Nodup) : (cs.map (Copy.place D)).Nodup := by
  refine List.pairwise_map.2 ((List.pairwise_map.1 h).imp_of_mem fun {c c'} hc hc' hne he => hne ?_)
  have hnames := List.reverse_injective (List.append_cancel_right he)
  rw [Copy.output, Copy.output, hpackage c hc, hpackage c' hc'] at hnames
  exact congrArg Path.ofSegments (List.append_cancel_left hnames)

/-- The copies of one package are a layout of what they left. -/
theorem Transfers.exists_layout {cs : List Copy} (h : Transfers base s cs s') (hplain : ∀ c ∈ cs, c.Plain)
    (hpackage : ∀ c ∈ cs, c.package = p) (hnodup : (cs.map Copy.rel).Nodup)
    (hsource : ∀ D via, s'.files.Leads (startOf s.cwd base) (pathNames base) via D → ∀ c ∈ cs, ∃ S a,
      s.files.find s.cwd .look c.package.sourceDir = .ok (.found S .directory) ∧
        s.files.lookup (c.names.reverse ++ S) = some (.file a) ∧ ¬ D <:+ S ∧ ¬ S <:+ D)
    (hdest : ∀ D via, s'.files.Leads (startOf s.cwd base) (pathNames base) via D → s.files.LinkFree D) :
    ∃ D, Layout s base D cs s'.files := by
  by_cases hne : cs = []
  · subst hne
    cases h with
    | nil hfiles => exact ⟨[], .nil hfiles⟩
  obtain ⟨D, via, hv⟩ := h.leads hplain hne
  have hfield : Field s.cwd base D s'.files :=
    ⟨⟨via, hv⟩, fun q l hq hl => hdest D via hv q l hq (h.link hl)⟩
  have hroots : ∀ c ∈ cs, ∀ c' ∈ cs, Lays s.cwd s.files s'.files (c.root base) →
      Lays s.cwd s.files s'.files (c'.root base) := by
    intro c hc c' hc'
    rw [Copy.root, Copy.root, hpackage c hc, hpackage c' hc']
    exact id
  exact ⟨D, h.layout hplain hfield hroots (nodup_places hpackage hnodup) (hsource D via hv)⟩

theorem Layout.log {D : Location} {cs : List Copy} {F : FileSystem} (h : Layout s base D cs F)
    (l : List LogLine) : Layout { s with log := l } base D cs F :=
  ⟨h.outlines, h.nodup, h.plain, h.source, h.lays, h.slot, h.file, h.changed, h.least⟩

/-- A package whose copies are laid out is built in every course, and to the same end. -/
theorem Layout.buildPackage {D : Location} {cs : List Copy} {F : FileSystem}
    {r : Except Fault (List Manifest.Entry)} (h : Layout s base D cs F) (hpackage : ∀ c ∈ cs, c.package = p)
    (hscan : s.perform (scan p.sourceDir) = (.ok (cs.map Copy.rel), s)) (hworkers : 1 ≤ workers)
    (hcourse : Concurrent.buildPackage base workers p s r t) :
    r = .ok (cs.map Copy.entry) ∧ t.cwd = s.cwd ∧ ∀ q, t.files.lookup q = F.lookup q := by
  obtain ⟨r', hpool, rfl⟩ := Concurrent.of_buildPackage hscan hworkers hcourse
  rw [map_prepare hpackage] at hpool
  obtain ⟨⟨ds, rfl, hds⟩, hcwd, hfiles⟩ := (h.log _).pool hpool
  exact ⟨congrArg Except.ok hds, hcwd, hfiles⟩

/-- Whatever the timing of the workers and however many there are, a package is built as it is by one: with
the same entries, in the order of their paths, and the same file system in the end. -/
theorem buildPackage_timing (hrun : s.perform (buildPackage base workers p) = (.ok es, s'))
    (hhome : ∀ n ∈ Path.segments p.home, IsPlain n)
    (hsource : ∀ S, s.files.find s.cwd .look p.sourceDir = .ok (.found S .directory) →
      s.files.LinkFree S ∧
      (∀ (names : List Text) x, s.files.lookup (names.reverse ++ S) = some x → ∀ n ∈ names, '\\' ∉ n) ∧
      ∀ D via, s'.files.Leads (startOf s.cwd base) (pathNames base) via D → ¬ D <:+ S ∧ ¬ S <:+ D)
    (hdest : ∀ D via, s'.files.Leads (startOf s.cwd base) (pathNames base) via D → s.files.LinkFree D) :
    es = (Text.sort (declarations s p.sourceDir)).map (Manifest.entry p.home) ∧
    ∀ workers', 1 ≤ workers' → (∃ r t, Concurrent.buildPackage base workers' p s r t) ∧
      ∀ r t, Concurrent.buildPackage base workers' p s r t →
        r = .ok es ∧ t.cwd = s'.cwd ∧ ∀ q, t.files.lookup q = s'.files.lookup q := by
  let P : List Text → Prop := fun names => ∃ S x,
    s.files.find s.cwd .look p.sourceDir = .ok (.found S .directory) ∧ Declares s.files S names x
  have hback : ∀ names, P names → ∀ n ∈ names, '\\' ∉ n := by
    rintro names ⟨S, x, hS, hd⟩
    exact (hsource S hS).2.1 names x hd.lookup
  have hrels : ∀ rel ∈ declarations s p.sourceDir, ∃ names, P names ∧ Path.ofSegments names = rel := by
    intro rel hrel
    obtain ⟨S, hS⟩ := found_of_mem_declarations hrel
    obtain ⟨names, x, hd, rfl⟩ := (mem_declarations hS (hsource S hS).1).1 hrel
    have hnames : P names := ⟨S, x, hS, hd.toDeclares⟩
    exact ⟨names, hnames, (slashed_ofSegments (hback names hnames)).symm⟩
  obtain ⟨cs, hscan, -, hcs, rfl, htransfers⟩ := buildPackage_transfers hback hrels hrun
  obtain ⟨-, -, hsort⟩ := scan_eq_sort hscan
  have hplain : ∀ c ∈ cs, c.Plain := by
    intro c hc
    obtain ⟨rfl, S, x, hS, hd⟩ := hcs c hc
    exact ⟨hhome, hd.isPlain, hd.ne_nil, hback _ ⟨S, x, hS, hd⟩⟩
  have hpackage : ∀ c ∈ cs, c.package = p := fun c hc => (hcs c hc).1
  have hnodup : (cs.map Copy.rel).Nodup := by
    rcases cs.eq_nil_or_concat with rfl | ⟨init, c, rfl⟩
    · exact List.nodup_nil
    obtain ⟨-, S, x, hS, -⟩ := hcs c (by simp)
    rw [hsort, (Text.sort_perm _).nodup_iff]
    exact nodup_declarations hS (hsource S hS).1 fun names x hd => hback names ⟨S, x, hS, hd⟩
  have hfiles : ∀ D via, s'.files.Leads (startOf s.cwd base) (pathNames base) via D → ∀ c ∈ cs, ∃ S a,
      s.files.find s.cwd .look c.package.sourceDir = .ok (.found S .directory) ∧
        s.files.lookup (c.names.reverse ++ S) = some (.file a) ∧ ¬ D <:+ S ∧ ¬ S <:+ D := by
    intro D via hv c hc
    obtain ⟨rfl, S, x, hS, hd⟩ := hcs c hc
    obtain ⟨hfree, -, hapart⟩ := hsource S hS
    obtain ⟨a, rfl⟩ := hd.exists_file hfree
    exact ⟨S, a, hS, hd.lookup, hapart D via hv⟩
  obtain ⟨D, hlayout⟩ := htransfers.exists_layout hplain hpackage hnodup hfiles hdest
  have hentries : cs.map Copy.entry =
      (Text.sort (declarations s p.sourceDir)).map (Manifest.entry p.home) := by
    rw [← hsort, List.map_map]
    refine List.map_congr_left fun c hc => ?_
    show Manifest.entry c.package.home c.rel = _
    rw [(hcs c hc).1]
    rfl
  refine ⟨hentries, fun workers' hworkers' => ⟨?_, ?_⟩⟩
  · exact ⟨_, _, Concurrent.buildPackage_allows base workers' p s _ _ rfl⟩
  · intro r t ht
    obtain ⟨hr, hcwd, hlookup⟩ := hlayout.buildPackage hpackage hscan hworkers' ht
    exact ⟨hr, hcwd.trans htransfers.cwd_eq.symm, hlookup⟩

/-- The package of `twins` at a home of two names. -/
def twinsPackage : Package := { home := "ns/core".toList, sourceDir := "p".toList }

/-- What copying the files of `twins` one after the other leaves. -/
def twinsBuilt : Host := (twins.perform (buildPackage "out/gen".toList 1 twinsPackage)).2

def twinsEntries : List Manifest.Entry :=
  ["a.d.ts".toList, "a/index.d.ts".toList, "index.d.ts".toList, "main.d.ts".toList].map
    (Manifest.entry "ns/core".toList)

theorem linkFree_root {fs : FileSystem} (h : ∀ e ∈ fs.entries, (e.2 matches .link _) = false) :
    fs.LinkFree [] := by
  intro q l _ hl
  by_cases hq : q = []
  · subst hq
    cases hl
  · have hno := h _ ((FileSystem.lookup_eq_some hq).1 hl)
    cases hno

/-- Two files of a package are copied to directories that are still missing, the one below the other. Whoever
comes first makes them. -/
theorem buildPackage_timing_twins :
    twinsBuilt.files.lookup ["index.d.ts".toList, "a".toList, "core".toList, "ns".toList, "gen".toList,
        "out".toList] ≠ none ∧
      ∀ r t, Concurrent.buildPackage "out/gen".toList 8 twinsPackage twins r t →
        r = .ok twinsEntries ∧ t.cwd = twinsBuilt.cwd ∧
          ∀ q, t.files.lookup q = twinsBuilt.files.lookup q := by
  have hrun : (twins.perform (buildPackage "out/gen".toList 1 twinsPackage)).1 = .ok twinsEntries := by
    decide +kernel
  have hfree : twins.files.LinkFree [] := linkFree_root (by decide +kernel)
  have hfree' : twinsBuilt.files.LinkFree [] := linkFree_root (by decide +kernel)
  have hfound : twins.files.find twins.cwd .look twinsPackage.sourceDir =
      .ok (.found ["p".toList] .directory) := by
    decide +kernel
  have hback : ∀ e ∈ twins.files.entries, ∀ n ∈ e.1, '\\' ∉ n := by decide +kernel
  have hdest : ∀ D via, twinsBuilt.files.Leads (startOf twins.cwd "out/gen".toList)
      (pathNames "out/gen".toList) via D → D = ["gen".toList, "out".toList] := fun D via hv =>
    hv.eq_of_plain hfree' List.nil_suffix (by decide)
  have hthere : twinsBuilt.files.lookup ["index.d.ts".toList, "a".toList, "core".toList, "ns".toList,
      "gen".toList, "out".toList] ≠ none := by
    decide +kernel
  have hpair : twins.perform (buildPackage "out/gen".toList 1 twinsPackage) = (.ok twinsEntries, twinsBuilt) :=
    Prod.ext hrun rfl
  refine ⟨hthere, ((buildPackage_timing hpair (by decide) ?_ ?_).2 8 (by decide)).2⟩
  · intro S hS
    rw [hfound] at hS
    cases hS
    refine ⟨fun q t _ => hfree q t List.nil_suffix, fun names x hl n hn => ?_, fun D via hv => ?_⟩
    · exact hback _ ((FileSystem.lookup_eq_some (by simp)).1 hl) n
        (List.mem_append_left _ (List.mem_reverse.2 hn))
    · obtain rfl := hdest D via hv
      decide
  · exact fun D via _ q t _ => hfree q t List.nil_suffix

end Rehome.Build
