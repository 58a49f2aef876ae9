import Rehome.Proofs.FileSystem.Removal
import Rehome.Proofs.FileSystem.Traces

/-! Paths that can be gone along once the directories at their end are there. Whatever else is done to a
file system, such a path leads to the same place. -/

namespace Rehome.FileSystem

open Rehome.Path (IsPlain)

variable {fs fs' : FileSystem} {cwd D p : Location} {path : Text} {rest : List Text}

/-- The path is not too long. It leads to `p`, by way of no more links than a walk follows, apart from the
plain names `rest` at its end, none of which is too long. -/
structure Passage (fs : FileSystem) (path : Text) (rest : List Text) (p : Location) : Prop where
  isAbsolute : Path.isAbsolute path = true
  size : path.byteSize ≤ maxPathBytes
  leads : ∃ init via, pathNames path = init ++ rest ∧ via.length ≤ maxLinks ∧ fs.Leads [] init via p ∧
    (init = [] ∨ rest ≠ [])
  plain : ∀ n ∈ rest, IsPlain n ∧ n.byteSize ≤ maxNameBytes

namespace Passage

/-- The way to a site can be passed where it leads to a directory once more is there. -/
theorem of_found (habs : Path.isAbsolute path = true) (hext : fs.Extends fs')
    (hsite : fs.Site [] (pathNames path) D)
    (hfound : fs'.find cwd .look path = .ok (.found D .directory))
    (hroot : fs.lookup D = some .directory → pathNames path = []) :
    ∃ rest p, fs.Passage path rest p ∧ rest.reverse ++ p = D := by
  obtain ⟨init, rest, via, p, hnames, hv, rfl, hplain, -⟩ := hsite
  obtain ⟨-, hsize, via', hlen, hv'⟩ := find_look_directory_iff.1 hfound
  rw [startOf_of_isAbsolute habs] at hv'
  have hbytes := hv'.byteSize_le
  rw [hnames] at hv' hbytes
  obtain ⟨p', v₁, v₂, rfl, h₁, -⟩ := hv'.split
  obtain ⟨rfl, -⟩ := h₁.deterministic (hv.of_extends hext)
  rw [List.length_append] at hlen
  refine ⟨rest, p, ⟨habs, hsize, ⟨init, v₁, hnames, by omega, hv, ?_⟩, fun n hn => ?_⟩, rfl⟩
  · by_cases hrest : rest = []
    · rw [hrest, List.reverse_nil, List.nil_append] at hroot
      exact .inl (List.append_eq_nil_iff.1 (hnames.symm.trans (hroot (hv.lookup_eq rfl)))).1
    · exact .inr hrest
  · have hn' := hplain n hn
    exact ⟨hn', hbytes n (List.mem_append_right _ hn) hn'.ne_here hn'.ne_up⟩

variable (h : fs.Passage path rest p)
include h

theorem of_extends (hext : fs.Extends fs') : fs'.Passage path rest p := by
  obtain ⟨init, via, hnames, hlen, hv, hends⟩ := h.leads
  exact { h with leads := ⟨init, via, hnames, hlen, hv.of_extends hext, hends⟩ }

theorem site
    (hway : ∀ q, q <:+ rest.reverse ++ p → fs.lookup q = none ∨ fs.lookup q = some .directory) :
    fs.Site [] (pathNames path) (rest.reverse ++ p) := by
  obtain ⟨init, via, hnames, -, hv, -⟩ := h.leads
  exact hnames ▸ .append hv (.of_way h.plain hway)

/-- Where more is there, the path goes by way of the same links. -/
theorem traces (hext : fs.Extends fs')
    (hno : ∀ q, q <:+ rest.reverse ++ p → ∀ t, fs'.lookup q ≠ some (.link t)) :
    ∃ via, fs'.Traces [] (pathNames path) via (rest.reverse ++ p) ∧
      ∀ l ∈ via, ∃ t, fs.lookup l = some (.link t) := by
  obtain ⟨init, via, hnames, -, hv, -⟩ := h.leads
  have hrest : fs'.Traces p rest [] (rest.reverse ++ p) :=
    traces_straight (fun n hn => (h.plain n hn).1) fun q _ _ hq => hno q hq
  refine ⟨via ++ [], hnames ▸ (hv.of_extends hext).traces.append hrest, ?_⟩
  rw [List.append_nil]
  exact hv.link_of_mem

/-- Once there is a directory at its end, the path leads there. -/
theorem find {purpose : Purpose} (hpurpose : purpose ≠ .openFile)
    (hdir : fs.lookup (rest.reverse ++ p) = some .directory) :
    fs.find cwd purpose path = .ok (.found (rest.reverse ++ p) .directory) := by
  obtain ⟨init, via, hnames, hlen, hv, hends⟩ := h.leads
  have hne : path ≠ [] := by
    rintro rfl
    cases h.isAbsolute
  have hrest : ∀ n ∈ rest, n ≠ Path.here ∧ n ≠ Path.up ∧ n.byteSize ≤ maxNameBytes := fun n hn =>
    ⟨(h.plain n hn).1.ne_here, (h.plain n hn).1.ne_up, (h.plain n hn).2⟩
  rw [find_eq_walk hne h.size, startOf_of_isAbsolute h.isAbsolute, hnames]
  rcases hends with rfl | hends
  · cases hv
    exact walk_directories hrest hpurpose hdir
  · rw [walk_append hv hlen hends]
    exact walk_directories hrest hpurpose hdir

theorem isDirectory_eq_true_iff
    (hway : ∀ q, q <:+ rest.reverse ++ p → fs.lookup q = none ∨ fs.lookup q = some .directory) :
    fs.isDirectory cwd path = true ↔ fs.lookup (rest.reverse ++ p) = some .directory := by
  rw [FileSystem.isDirectory_eq_true_iff]
  refine ⟨fun ⟨q, hq⟩ => ?_, fun hdir => ⟨_, h.find (by decide) hdir⟩⟩
  obtain ⟨via, -, hv⟩ := leads_of_find hq
  rw [startOf_of_isAbsolute h.isAbsolute] at hv
  rw [(h.site hway).unique hv.site]
  exact hv.lookup_eq rfl

omit h in
/-- The tree at the end of the path is removed. -/
theorem removeTree (hplain : ∀ n ∈ pathNames path, IsPlain n)
    (h : (fs.clear (rest.reverse ++ p)).Passage path rest p)
    (hdir : fs.lookup (rest.reverse ++ p) = some .directory) :
    fs.removeTree cwd path =
      (.ok (), (fs.clear (rest.reverse ++ p)).prune (rest.reverse ++ p)) := by
  have hname : (fs.clear (rest.reverse ++ p)).nameDirectory cwd path = .ok (rest.reverse ++ p) := by
    unfold nameDirectory
    rw [if_neg (not_dotted_of_plain hplain), h.find (by decide) (lookup_clear_self.trans hdir)]
  rw [FileSystem.removeTree, (h.of_extends (clear_extends fs _)).find (by decide) hdir]
  dsimp only
  rw [hname]

end Passage

end Rehome.FileSystem
