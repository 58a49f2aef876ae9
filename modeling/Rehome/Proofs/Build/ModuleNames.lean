import Rehome.Proofs.Build.Made
import Rehome.Proofs.Declaration.Names

/-! The module names of a build. Keys are told apart, and the name of a module is what its key spells or
the home of its package, so that two modules share a name only where an index or a root file comes in. -/

namespace Rehome.Build

variable {s s' : Host} {m m' : Made} {n : Text}

namespace Made

/-- The module of a root file goes by the home of its package, that of any other file by a name that its
key spells. -/
def GoesBy (m : Made) (n : Text) : Prop :=
  if m.declaration.relPath = m.package.rootFile.slashed then m.package.home = n
  else Declaration.Spells m.key n

/-- Both modules go by one name. -/
def Merges (m m' : Made) : Prop := ∃ n, m.GoesBy n ∧ m'.GoesBy n

theorem Rehomed.modulePath_eq_iff (h : m.Rehomed) : m.declaration.modulePath = n ↔ m.GoesBy n := by
  obtain ⟨t, hd⟩ := h.declaration
  have hfile : Declaration.isFile m.declaration.relPath.slashed = true := h.slashed.symm ▸ h.isFile
  have hhome : m.declaration.home = m.package.home := by rw [hd]; rfl
  have hpath : m.declaration.modulePath =
      Declaration.modulePathOf m.package.home m.declaration.relPath m.package.rootFile := by
    conv_lhs => rw [hd]
    rfl
  rw [hpath, Declaration.modulePathOf_eq_iff hfile, h.slashed, ← hhome]
  rw [GoesBy, key, entry, hhome]

theorem Rehomed.merges_iff (h : m.Rehomed) (h' : m'.Rehomed) :
    m.Merges m' ↔ m.declaration.modulePath = m'.declaration.modulePath := by
  constructor
  · rintro ⟨n, hn, hn'⟩
    rw [h.modulePath_eq_iff.2 hn, h'.modulePath_eq_iff.2 hn']
  · intro he
    exact ⟨_, h.modulePath_eq_iff.1 he, h'.modulePath_eq_iff.1 rfl⟩

end Made

/-- The files of a build that succeeds have different keys, whatever the timing of its workers. Their modules
have different names as long as no two of them collapse: as root files of packages with one home, or as a root
file whose home the key of the other file spells, or as a file and the index of the directory of the same name. -/
theorem run_modulePaths_nodup_iff {cwd : Text} {c : Settings} {b : Build}
    (hrun : Concurrent.run cwd c s (.ok b) s') :
    ∃ made u w, Concurrent.makeAll cwd c s (.ok made) u ∧
      u.perform (writeText b.manifestPath (Manifest.render b.entries)) = (.ok (), w) ∧
      s'.files = w.files ∧ b.entries = made.map Made.entry ∧ (made.map Made.key).Nodup ∧
      ((made.map (·.declaration.modulePath)).Nodup ↔ made.Pairwise fun m m' => ¬ m.Merges m') := by
  obtain ⟨-, -, made, u, w, hmade, hentries, hkeys, hmanifest, hfiles, -⟩ := Concurrent.run_makes hrun
  refine ⟨made, u, w, hmade, hmanifest, hfiles, hentries, hkeys, ?_⟩
  have hrehomed := Concurrent.rehomed_of_makeAll hmade
  rw [List.Nodup, List.pairwise_map]
  refine List.Pairwise.iff_of_mem fun hm hm' => ?_
  rw [(hrehomed _ hm).2.merges_iff (hrehomed _ hm').2]

theorem run_modulePaths_nodup_iff_workshop :
    let b : Build :=
      { destination := "/w/out".toList
        manifestPath := "/w/out/dts-list.ts".toList
        entries := [Manifest.entry "a".toList "d/x.d.ts".toList,
          Manifest.entry "c/e".toList "y.d.ts".toList] }
    let s' := (workshop.perform (run workshop.cwd.path (workshopBuild "a".toList))).2
    Concurrent.run workshop.cwd.path (workshopBuild "a".toList) workshop (.ok b) s' ∧
      ∃ made u w, Concurrent.makeAll workshop.cwd.path (workshopBuild "a".toList) workshop (.ok made) u ∧
        u.perform (writeText b.manifestPath (Manifest.render b.entries)) = (.ok (), w) ∧
        s'.files = w.files ∧ b.entries = made.map Made.entry ∧ (made.map Made.key).Nodup ∧
        ((made.map (·.declaration.modulePath)).Nodup ↔
          made.Pairwise fun m m' => ¬ m.Merges m') := by
  intro b s'
  have hrun : (workshop.perform (run workshop.cwd.path (workshopBuild "a".toList))).1 = .ok b := by
    decide +kernel
  have hcourse : Concurrent.run workshop.cwd.path (workshopBuild "a".toList) workshop (.ok b) s' :=
    Concurrent.run_allows _ _ _ _ _ (Prod.ext hrun rfl)
  exact ⟨hcourse, run_modulePaths_nodup_iff hcourse⟩

/-- A directory `p` with a file beside a directory of the same name that has an index, and with an index
of its own. -/
def twins : Host where
  files :=
    ((((((FileSystem.empty.put [] "p".toList .directory).put
      ["p".toList] "a.d.ts".toList (.file (.text "A".toList))).put
      ["p".toList] "a".toList .directory).put
      ["a".toList, "p".toList] "index.d.ts".toList (.file (.text "B".toList))).put
      ["p".toList] "index.d.ts".toList (.file (.text "C".toList))).put
      ["p".toList] "main.d.ts".toList (.file (.text "D".toList)))
  cwd := []
  log := []

def twinsBuild : Settings where
  destination := "out".toList
  packages := [{ home := "ns".toList, sourceDir := "p".toList, rootFile := "main.d.ts".toList }]

/-- A build succeeds though it gives a file and the index of a directory one name, and the root file of
the package and its index another. -/
theorem run_merges_twins :
    ((twins.perform (run twins.cwd.path twinsBuild)).1.map fun b => b.entries.map (·.key)) =
        .ok ["ns/a.d.ts".toList, "ns/a/index.d.ts".toList, "ns/index.d.ts".toList,
          "ns/main.d.ts".toList] ∧
      ((twins.perform (makeAll twins.cwd.path twinsBuild)).1.map fun made =>
          made.map (·.declaration.modulePath)) =
        .ok ["ns/a".toList, "ns/a".toList, "ns".toList, "ns".toList] := by
  decide +kernel

end Rehome.Build
