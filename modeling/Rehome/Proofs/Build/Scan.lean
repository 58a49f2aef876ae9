import Mathlib.Data.Set.Function
import Rehome.Proofs.Build.Source
import Rehome.Proofs.Path.Overlap

/-! What a scan lists of a directory that may hold links, too. Between the entries that it is after and the
paths that it lists there is a correspondence, and each path leads back to its entry. -/

namespace Rehome.Build

open FileSystem (maxPathBytes maxNameBytes pathNames startOf)
open Rehome.Path (IsPlain)

variable {u : Host} {dir : Text} {S p : Location} {names : List Text} {n : Text} {x : Node}

/-- From the directory `S`, to which `dir` leads, the names lead through real directories to a declaration
file `x`, which is neither a directory nor a link to one. -/
structure Entry (u : Host) (dir : Text) (S : Location) (names : List Text) (x : Node) : Prop where
  entered : ∃ init n p, names = init ++ [n] ∧ u.files.Enters S init p ∧ u.files.lookup (n :: p) = some x ∧
    Declaration.isFile n = true
  ne_directory : x ≠ .directory
  link : ∀ t, x = .link t → u.files.isDirectory u.cwd (Path.join dir (Path.ofSegments names)) = false

/-- The path from `dir` along the names is one that can be followed. -/
structure Followable (dir : Text) (names : List Text) : Prop where
  path : (Path.join dir (Path.ofSegments names)).byteSize ≤ maxPathBytes
  names : ∀ n ∈ names, n.byteSize ≤ maxNameBytes

instance (dir : Text) (names : List Text) : Decidable (Followable dir names) :=
  decidable_of_iff ((Path.join dir (Path.ofSegments names)).byteSize ≤ maxPathBytes ∧
      ∀ n ∈ names, n.byteSize ≤ maxNameBytes) ⟨fun ⟨h₁, h₂⟩ => ⟨h₁, h₂⟩, fun ⟨h₁, h₂⟩ => ⟨h₁, h₂⟩⟩

namespace Entry

variable (h : Entry u dir S names x)
include h

theorem lookup : u.files.lookup (names.reverse ++ S) = some x := by
  obtain ⟨init, n, p, rfl, hp, hl, -⟩ := h.entered
  rw [List.reverse_append, List.append_assoc, ← hp.eq]
  exact hl

theorem declares : Declares u.files S names x := by
  refine ⟨h.lookup, h.ne_directory, ?_⟩
  obtain ⟨init, n, p, rfl, -, -, hn⟩ := h.entered
  rw [List.getLast?_append, List.getLast?_singleton]
  exact hn

theorem mem_filesBelow : (names, x) ∈ u.files.filesBelow S :=
  FileSystem.mem_filesBelow.2 ⟨h.ne_directory, h.lookup⟩

theorem inReach (hf : Followable dir names) : FileSystem.InReach dir names := by
  obtain ⟨init, n, p, rfl, -⟩ := h.entered
  have hplain := h.declares.isPlain
  have hpath := hf.path
  rw [Path.join_ofSegments dir hplain h.declares.ne_nil, Path.descend_concat] at hpath
  have hrel := Path.isAbsolute_eq_false_of_plain (hplain n (by simp))
  unfold FileSystem.InReach
  rw [List.dropLast_concat]
  exact (FileSystem.byteSize_le_of_isPrefix (Path.prefix_join _ hrel)).trans hpath

/-- The path of an entry leads to it. A link at the end is not followed, and whatever links there are on the way
stand on the way to the directory. -/
theorem find_eq (hfound : u.files.find u.cwd .look dir = .ok (.found S .directory)) (hf : Followable dir names) :
    u.files.find u.cwd .lookAtLink (Path.join dir (Path.ofSegments names)) =
      .ok (.found (names.reverse ++ S) x) := by
  have hplain := h.declares.isPlain
  have hrel := Path.isAbsolute_ofSegments hplain
  have hends := Path.Ends.join dir (.ofSegments hplain h.declares.ne_nil) hrel
  obtain ⟨via, hlen, hv⟩ := FileSystem.leads_of_find hfound
  obtain ⟨init, n, p, rfl, hp, hl, -⟩ := h.entered
  obtain ⟨hinit, hn⟩ := List.forall_mem_append.1 hf.names
  have hn := hn n List.mem_cons_self
  obtain ⟨-, hhere, hup, -⟩ := FileSystem.isName_of_lookup hl n List.mem_cons_self
  have hway := hv.append (hp.leads hinit)
  rw [List.append_nil] at hway
  rw [FileSystem.find_eq_walk hends.ne_nil hf.path, hends.slash, FileSystem.startOf_join u.cwd dir hrel,
    FileSystem.pathNames_join dir hrel, FileSystem.pathNames_ofSegments hplain, ← List.append_assoc,
    FileSystem.walk_append hway hlen (List.cons_ne_nil n [])]
  have hstop : u.files.stride .lookAtLink false p [n] = .stop (.ok (.found (n :: p) x)) := by
    rw [FileSystem.stride_name hhere hup (by simp) hn, hl]
    cases x with
    | directory => exact absurd rfl h.ne_directory
    | file c => rfl
    | link t => rfl
  rw [FileSystem.walk_of_stop hstop, List.reverse_append, List.append_assoc, ← hp.eq]
  rfl

end Entry

theorem entry_of_isFile (h : u.files.IsFile u.cwd dir S names x)
    (hlast : names.getLast?.any Declaration.isFile = true) : Entry u dir S names x := by
  have hdecl : Declares u.files S names x := ⟨h.lookup, h.ne_directory, hlast⟩
  refine ⟨?_, h.ne_directory, fun t ht => ?_⟩
  · obtain ⟨init, n, rfl⟩ := (List.eq_nil_or_concat names).resolve_left hdecl.ne_nil
    rw [List.concat_eq_append] at hlast ⊢
    have hl := h.lookup
    rw [List.concat_eq_append, List.reverse_append, List.append_assoc] at hl
    refine ⟨init, n, _, rfl, .of_lookup (FileSystem.lookup_parent hl), hl, ?_⟩
    rwa [List.getLast?_append, List.getLast?_singleton] at hlast
  · rw [Path.join_ofSegments dir hdecl.isPlain hdecl.ne_nil]
    exact h.link t ht

/-- What is listed are the entries in reach. -/
theorem mem_filter_files_iff (hfound : u.files.find u.cwd .look dir = .ok (.found S .directory)) :
    names ∈ (u.files.files u.cwd dir).filter (fun names => names.getLast?.any Declaration.isFile) ↔
      FileSystem.InReach dir names ∧ ∃ x, Entry u dir S names x := by
  rw [List.mem_filter, FileSystem.mem_files_of_found hfound]
  constructor
  · rintro ⟨⟨hreach, x, hx⟩, hlast⟩
    exact ⟨hreach, x, entry_of_isFile hx hlast⟩
  · rintro ⟨hreach, x, h⟩
    have hdecl := h.declares
    refine ⟨⟨hreach, x, h.lookup, h.ne_directory, fun t ht => ?_⟩, hdecl.isFile⟩
    rw [← Path.join_ofSegments dir hdecl.isPlain hdecl.ne_nil]
    exact h.link t ht

/-- A scan lists the entries of a directory one to one and in order, and each path that it lists leads to its entry,
as long as no name holds a backslash. -/
theorem scan_exact (hfound : u.files.find u.cwd .look dir = .ok (.found S .directory))
    (hcwd : Path.isAbsolute dir = false → u.files.lookup u.cwd = some .directory)
    (hback : ∀ names x, Entry u dir S names x → ∀ n ∈ names, '\\' ∉ n)
    (hfollow : ∀ names x, Entry u dir S names x → Followable dir names) :
    ∃ rels, u.perform (scan dir) = (.ok rels, u) ∧ rels.Pairwise Text.Before ∧
      Set.BijOn Path.ofSegments {names | ∃ x, Entry u dir S names x} {rel | rel ∈ rels} ∧
      ∀ names x, Entry u dir S names x →
        u.files.find u.cwd .lookAtLink (Path.join dir (Path.ofSegments names)) =
          .ok (.found (names.reverse ++ S) x) := by
  have hmem : ∀ names, names ∈ (u.files.files u.cwd dir).filter
      (fun names => names.getLast?.any Declaration.isFile) ↔ ∃ x, Entry u dir S names x := fun names =>
    (mem_filter_files_iff hfound).trans
      (and_iff_right_of_imp fun ⟨x, h⟩ => h.inReach (hfollow names x h))
  have hslashed : ∀ names x, Entry u dir S names x →
      (Path.ofSegments names).slashed = Path.ofSegments names :=
    fun names x h => slashed_ofSegments (hback names x h)
  have hinj : ∀ names x names' x', Entry u dir S names x → Entry u dir S names' x' →
      Path.ofSegments names = Path.ofSegments names' → names = names' :=
    fun _ _ _ _ h h' he => (h.declares.eq_of_ofSegments h'.declares he).1
  have hdir : u.files.isDirectory u.cwd dir = true := FileSystem.isDirectory_eq_true_iff.2 ⟨S, hfound⟩
  refine ⟨_, perform_scan_iff.2 ⟨hdir, fun _ => hcwd, rfl⟩, Text.pairwise_before_sort ?_, ⟨?_, ?_, ?_⟩, ?_⟩
  · refine ((FileSystem.nodup_files ..).filter _).map_on fun names hnames names' hnames' he => ?_
    obtain ⟨x, h⟩ := (hmem names).1 hnames
    obtain ⟨x', h'⟩ := (hmem names').1 hnames'
    rw [hslashed names x h, hslashed names' x' h'] at he
    exact hinj _ _ _ _ h h' he
  · rintro names ⟨x, h⟩
    exact Text.mem_sort.2 (List.mem_map.2 ⟨names, (hmem names).2 ⟨x, h⟩, hslashed names x h⟩)
  · rintro names ⟨x, h⟩ names' ⟨x', h'⟩ he
    exact hinj _ _ _ _ h h' he
  · intro rel hrel
    obtain ⟨names, hnames, rfl⟩ := List.mem_map.1 (Text.mem_sort.1 hrel)
    obtain ⟨x, h⟩ := (hmem names).1 hnames
    exact ⟨names, ⟨x, h⟩, (hslashed names x h).symm⟩
  · exact fun names x h => h.find_eq hfound (hfollow names x h)

/-- Sources with a directory that is named like a declaration file, and with links to a file, to a directory and to
nothing. -/
def shelf : Host where
  files :=
    (((((((((FileSystem.empty.put [] "p".toList .directory).put
      ["p".toList] "a.d.ts".toList (.file (.text []))).put
      ["p".toList] "b.d.ts".toList .directory).put
      ["b.d.ts".toList, "p".toList] "c.d.ts".toList (.file (.text []))).put
      ["p".toList] "e.d.ts".toList (.link "a.d.ts".toList)).put
      ["p".toList] "f.d.ts".toList (.link "../q".toList)).put
      ["p".toList] "g.d.ts".toList (.link "gone".toList)).put
      [] "q".toList .directory).put
      ["q".toList] "h.d.ts".toList (.file (.text [])))
  cwd := []
  log := []

theorem scan_exact_linked :
    shelf.perform (scan "p".toList) =
        (.ok ["a.d.ts".toList, "b.d.ts/c.d.ts".toList, "e.d.ts".toList, "g.d.ts".toList], shelf) ∧
      Set.BijOn Path.ofSegments {names | ∃ x, Entry shelf "p".toList ["p".toList] names x}
        {rel | rel ∈ ["a.d.ts".toList, "b.d.ts/c.d.ts".toList, "e.d.ts".toList, "g.d.ts".toList]} := by
  have hfound : shelf.files.find shelf.cwd .look "p".toList = .ok (.found ["p".toList] .directory) := by decide +kernel
  have hall : ∀ e ∈ shelf.files.filesBelow ["p".toList],
      (∀ n ∈ e.1, '\\' ∉ n) ∧ Followable "p".toList e.1 := by decide +kernel
  obtain ⟨rels, hscan, -, hbij, -⟩ := scan_exact hfound (by decide) (fun names x h => (hall _ h.mem_filesBelow).1)
    fun names x h => (hall _ h.mem_filesBelow).2
  have hrels : (shelf.perform (scan "p".toList)).1 =
      .ok ["a.d.ts".toList, "b.d.ts/c.d.ts".toList, "e.d.ts".toList, "g.d.ts".toList] := by decide +kernel
  rw [hscan] at hrels
  obtain rfl := Except.ok.inj hrels
  exact ⟨hscan, hbij⟩

/-- A source with a backslash in a name. -/
def crookedShelf : Host where
  files := (FileSystem.empty.put [] "p".toList .directory).put ["p".toList] "a\\b.d.ts".toList (.file (.text []))
  cwd := []
  log := []

/-- The backslash of a name is listed as a slash, and the path leads nowhere. -/
theorem scan_misleads :
    Entry crookedShelf "p".toList ["p".toList] ["a\\b.d.ts".toList] (.file (.text [])) ∧
      (crookedShelf.perform (scan "p".toList)).1 = .ok ["a/b.d.ts".toList] ∧
      crookedShelf.files.find crookedShelf.cwd .lookAtLink (Path.join "p".toList "a/b.d.ts".toList) =
        .error .notFound := by
  refine ⟨entry_of_isFile ⟨?_, ?_, ?_⟩ ?_, ?_, ?_⟩
  · decide +kernel
  · decide
  · exact nofun
  · decide
  · decide +kernel
  · decide +kernel

end Rehome.Build
