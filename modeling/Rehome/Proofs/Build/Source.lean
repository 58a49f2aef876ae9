import Rehome.Proofs.Build.Confinement
import Rehome.Proofs.FileSystem.Listing
import Rehome.Proofs.FileSystem.Traces

/-! Sources while a build goes on. As long as a source stands apart from the destination, what is found
below it and what is read there is what was there at first. -/

namespace Rehome

open FileSystem (pathNames startOf Elsewhere Faded)
open Rehome.Path (IsPlain)

namespace FileSystem

variable {fs : FileSystem} {S : Location} {names : List Text} {x : Node}

/-- A walk straight down without links looks at what stands there. -/
theorem walk_look_plain {links : Nat} {slash : Bool} {r : Stop} (hfree : fs.LinkFree S)
    (hne : names ≠ []) (hplain : ∀ n ∈ names, IsPlain n)
    (hl : fs.lookup (names.reverse ++ S) = some x) (hx : x ≠ .directory)
    (h : fs.walk .look links slash S names = .ok r) : r = .found (names.reverse ++ S) x := by
  obtain ⟨init, n, via, d, rfl, -, hv, hw⟩ := leads_of_walk_ne_nil hne h
  obtain rfl := hv.eq_of_plain hfree List.suffix_rfl fun k hk => hplain k (List.mem_append_left _ hk)
  have hn := hplain n (by simp)
  rw [List.reverse_append, List.append_assoc, List.reverse_singleton, List.singleton_append] at hl ⊢
  obtain ⟨-, ⟨hdir, -⟩ | ⟨t, -, hlink, -⟩ | ⟨-, ⟨hnone, -⟩ | ⟨y, hy, -, hr, -⟩⟩⟩ :=
    walk_cons_ok hn.ne_here hn.ne_up hw
  · rw [hl] at hdir
    exact absurd (Option.some.inj hdir) hx
  · exact absurd hlink (hfree _ t ⟨n :: init.reverse, rfl⟩)
  · rw [hl] at hnone
    cases hnone
  · rw [hl] at hy
    cases hy
    exact hr

end FileSystem

namespace Build

variable {s u v : Host} {base dir real source t : Text} {D S : Location} {names rels : List Text}
  {x : Node}

/-- The path `dir` leads to `S`, by no link at `D` or inside and none that is too far away for the check.
What stands at `S` holds no links and no names with a backslash. -/
structure SourceAt (s : Host) (D : Location) (dir : Text) (S : Location) : Prop where
  spelt : ∃ via, s.files.Spelt s.cwd dir via S ∧ ∀ l ∈ via, ¬ D <:+ l
  linkFree : s.files.LinkFree S
  noBackslash : ∀ (names : List Text) x, s.files.lookup (names.reverse ++ S) = some x →
    ∀ n ∈ names, '\\' ∉ n

/-- A source that passes the check for a destination at `D`. -/
structure Apart (s : Host) (D : Location) (dir : Text) (S : Location) : Prop extends
    SourceAt s D dir S where
  above : ¬ D <:+ S
  below : ¬ S <:+ D
  workingDirectory : Path.isAbsolute dir = false → s.files.lookup s.cwd = some .directory

theorem SourceAt.apart {p : Package} {via : List Location} (hS : SourceAt s D p.sourceDir S)
    (hD : s.files.Spelt s.cwd base via D) (hdest : s.realPath base = .ok real)
    (hsource : s.realPath p.sourceDir = .ok source)
    (hcheck : Path.overlaps? real source ≠ some true) : Apart s D p.sourceDir S := by
  obtain ⟨via', hspelt, -⟩ := hS.spelt
  obtain ⟨habove, hbelow⟩ := apart_of_check hdest hsource hcheck hD hspelt
  exact { hS with above := habove, below := hbelow,
                  workingDirectory := (Host.realPath_ok hsource).2 }

/-- On the way to the working directory of `s` this is no directory, or is one at `D` or inside. -/
def Lost (s : Host) (D p : Location) : Prop :=
  p <:+ s.cwd ∧ (s.files.lookup p = some .directory → D <:+ p)

/-- Since `s` nothing was done but to remove the tree at `D` and to work inside it. -/
structure Since (s : Host) (D : Location) (u : Host) : Prop where
  elsewhere : Elsewhere s.files D u.files
  faded : Faded (Lost s D) s.cwd u.cwd

namespace Since

variable (h : Since s D u) (hS : Apart s D dir S)
include h hS

theorem lookup_eq {q : Location} (hq : S <:+ q) : u.files.lookup q = s.files.lookup q :=
  FileSystem.Outside.lookup_eq_of_apart h.elsewhere.outside hS.above hS.below hq

theorem linkFree : u.files.LinkFree S := fun q t hq => by
  rw [h.lookup_eq hS hq]
  exact hS.linkFree q t hq

/-- The path of a source leads where it led. -/
theorem eq_of_leads {S' : Location} {via : List Location}
    (hv : u.files.Leads (startOf u.cwd dir) (pathNames dir) via S') : S' = S := by
  obtain ⟨via₀, hspelt, hvia⟩ := hS.spelt
  have ht := hspelt.traces
  unfold startOf at hv ht
  by_cases habs : Path.isAbsolute dir = true
  · rw [if_pos habs] at hv ht
    have hroot : Faded (fun _ => False) [] [] := .refl []
    exact ((h.elsewhere.faded_of_leads hv ht hvia hroot).eq_of_not_lost fun hlost => hlost).symm
  · rw [if_neg habs] at hv ht
    refine ((h.elsewhere.faded_of_leads hv ht hvia h.faded).eq_of_not_lost ?_).symm
    rintro ⟨hsuf, hin⟩
    have hcwd := hS.workingDirectory (by simpa using habs)
    exact hS.above (hin (FileSystem.lookup_directory_of_suffix hcwd hsuf))

theorem eq_of_found {S' : Location}
    (hf : u.files.find u.cwd .look dir = .ok (.found S' .directory)) : S' = S := by
  obtain ⟨via, -, hv⟩ := FileSystem.leads_of_find hf
  exact h.eq_of_leads hS hv

end Since

/-! ### Scanning -/

/-- The names lead from `S` straight to a declaration file, which is `x`. -/
structure Declares (fs : FileSystem) (S : Location) (names : List Text) (x : Node) : Prop where
  lookup : fs.lookup (names.reverse ++ S) = some x
  ne_directory : x ≠ .directory
  isFile : names.getLast?.any Declaration.isFile = true

namespace Declares

variable {fs : FileSystem}

theorem ne_nil (h : Declares fs S names x) : names ≠ [] := by
  rintro rfl
  cases h.isFile

theorem isPlain (h : Declares fs S names x) : ∀ n ∈ names, IsPlain n := fun n hn => by
  obtain ⟨h₁, h₂, h₃, h₄, -⟩ := FileSystem.isName_of_lookup h.lookup n
    (List.mem_append_left _ (List.mem_reverse.2 hn))
  exact ⟨h₁, h₂, h₃, h₄⟩

/-- Without links, what is declared is a file. -/
theorem exists_file (h : Declares fs S names x) (hfree : fs.LinkFree S) : ∃ a, x = .file a := by
  cases x with
  | directory => exact absurd rfl h.ne_directory
  | file a => exact ⟨a, rfl⟩
  | link l => exact absurd h.lookup (hfree _ l (List.suffix_append ..))

/-- Files at different places have different paths. -/
theorem eq_of_ofSegments {names' : List Text} {x' : Node} (h : Declares fs S names x)
    (h' : Declares fs S names' x') (he : Path.ofSegments names = Path.ofSegments names') :
    names = names' ∧ x = x' := by
  obtain rfl := Path.ofSegments_inj h.isPlain h'.isPlain he
  have hl := h.lookup
  rw [h'.lookup] at hl
  exact ⟨rfl, (Option.some.inj hl).symm⟩

end Declares

/-- A declaration file that is near enough to `dir` to be listed. -/
structure Listed (fs : FileSystem) (dir : Text) (S : Location) (names : List Text) (x : Node) : Prop extends
    Declares fs S names x where
  inReach : FileSystem.InReach dir names

theorem slashed_ofSegments (h : ∀ n ∈ names, '\\' ∉ n) :
    (Path.ofSegments names).slashed = Path.ofSegments names := by
  have hback : '\\' ∉ Path.ofSegments names := by
    intro hc
    rcases Path.mem_ofSegments hc with hc | ⟨n, hn, hc⟩
    · cases hc
    · exact h n hn hc
  exact Path.slashed_eq_self hback

theorem mem_filter_files (hfound : u.files.find u.cwd .look dir = .ok (.found S .directory))
    (hfree : u.files.LinkFree S) :
    names ∈ (u.files.files u.cwd dir).filter (fun names => names.getLast?.any Declaration.isFile) ↔
      ∃ x, Listed u.files dir S names x := by
  rw [List.mem_filter, FileSystem.mem_files_of_found hfound]
  simp only [FileSystem.isFile_iff_of_linkFree hfree]
  constructor
  · rintro ⟨⟨hreach, x, hl, hdir⟩, hfile⟩
    exact ⟨x, ⟨hl, hdir, hfile⟩, hreach⟩
  · rintro ⟨x, h⟩
    exact ⟨⟨h.inReach, x, h.lookup, h.ne_directory⟩, h.isFile⟩

theorem mem_declarations {rel : Text} (hfound : u.files.find u.cwd .look dir = .ok (.found S .directory))
    (hfree : u.files.LinkFree S) : rel ∈ declarations u dir ↔
      ∃ names x, Listed u.files dir S names x ∧ (Path.ofSegments names).slashed = rel := by
  rw [declarations, List.mem_map]
  constructor
  · rintro ⟨names, hm, rfl⟩
    obtain ⟨x, h⟩ := (mem_filter_files hfound hfree).1 hm
    exact ⟨names, x, h, rfl⟩
  · rintro ⟨names, x, h, rfl⟩
    exact ⟨names, (mem_filter_files hfound hfree).2 ⟨x, h⟩, rfl⟩

theorem nodup_declarations (hfound : u.files.find u.cwd .look dir = .ok (.found S .directory))
    (hfree : u.files.LinkFree S)
    (hback : ∀ names x, Declares u.files S names x → ∀ n ∈ names, '\\' ∉ n) :
    (declarations u dir).Nodup := by
  refine ((FileSystem.nodup_files ..).filter _).map_on fun names hnames names' hnames' he => ?_
  obtain ⟨x, h⟩ := (mem_filter_files hfound hfree).1 hnames
  obtain ⟨x', h'⟩ := (mem_filter_files hfound hfree).1 hnames'
  rw [slashed_ofSegments (hback _ _ h.toDeclares), slashed_ofSegments (hback _ _ h'.toDeclares)] at he
  exact (h.eq_of_ofSegments h'.toDeclares he).1

/-- What a scan finds, it finds in a directory. -/
theorem found_of_mem_declarations {rel : Text} (h : rel ∈ declarations u dir) :
    ∃ S, u.files.find u.cwd .look dir = .ok (.found S .directory) := by
  obtain ⟨names, hnames, -⟩ := List.mem_map.1 h
  exact FileSystem.found_of_mem_files (List.mem_filter.1 hnames).1

/-- A scan succeeds where there is a directory, and a working directory if it is asked for. -/
theorem perform_scan_iff :
    u.perform (scan dir) = (.ok rels, u) ↔ u.files.isDirectory u.cwd dir = true ∧
      (declarations u dir ≠ [] → Path.isAbsolute dir = false →
        u.files.lookup u.cwd = some .directory) ∧ rels = Text.sort (declarations u dir) := by
  have hdecl : declarations u dir ≠ [] ↔
      (u.files.files u.cwd dir).filter (fun names => names.getLast?.any Declaration.isFile) ≠ [] :=
    not_congr List.map_eq_nil_iff
  rw [scan, Host.perform_bind, Host.perform_isDirectory]
  dsimp only
  by_cases hdir : u.files.isDirectory u.cwd dir = true
  swap
  · simp [hdir]
  rw [if_pos hdir, Host.perform_bind, Host.perform_files, hdecl]
  dsimp only
  split
  · next hasks =>
    have hasked : u.perform (discard Action.workingDirectory) =
        (u.workingDirectory.map fun _ => (), u) := by
      show u.perform (Action.workingDirectory >>= fun _ => pure ()) = _
      rw [Host.perform_bind, Host.perform_workingDirectory]
      rcases u.workingDirectory with e | t <;> rfl
    rw [Host.perform_bind, hasked, Host.workingDirectory]
    by_cases hl : u.files.lookup u.cwd = some .directory
    · rw [if_pos hl]
      constructor
      · intro h
        exact ⟨hdir, fun _ _ => hl, (Except.ok.inj (congrArg Prod.fst h)).symm⟩
      · rintro ⟨-, -, rfl⟩
        rfl
    · rw [if_neg hl]
      constructor
      · rintro ⟨⟩
      · rintro ⟨-, h, -⟩
        exact absurd (h hasks.1 (by simpa using hasks.2)) hl
  · next hno =>
    constructor
    · intro h
      exact ⟨hdir, fun hne habs => absurd ⟨hne, by simp [habs]⟩ hno,
        (Except.ok.inj (congrArg Prod.fst h)).symm⟩
    · rintro ⟨-, -, rfl⟩
      rfl

theorem scan_eq_sort (h : u.perform (scan dir) = (.ok rels, v)) :
    v = u ∧ u.files.isDirectory u.cwd dir = true ∧ rels = Text.sort (declarations u dir) := by
  have hsame := (Host.run_keeps (I := (· = u)) (scan_keeps dir) rfl).1
  rw [show Host.run (scan dir).run u = _ from h] at hsame
  obtain rfl : v = u := hsame
  obtain ⟨hdir, -, hrels⟩ := perform_scan_iff.1 h
  exact ⟨rfl, hdir, hrels⟩

/-- What was declared below a source still is. -/
theorem Since.declares_iff (h : Since s D u) (hS : Apart s D dir S) :
    Declares u.files S names x ↔ Declares s.files S names x := by
  have hl := h.lookup_eq hS (List.suffix_append names.reverse S)
  exact ⟨fun ⟨h₁, h₂, h₃⟩ => ⟨hl ▸ h₁, h₂, h₃⟩, fun ⟨h₁, h₂, h₃⟩ => ⟨hl ▸ h₁, h₂, h₃⟩⟩

theorem Since.listed_iff (h : Since s D u) (hS : Apart s D dir S) :
    Listed u.files dir S names x ↔ Listed s.files dir S names x :=
  ⟨fun hd => ⟨(h.declares_iff hS).1 hd.toDeclares, hd.inReach⟩,
    fun hd => ⟨(h.declares_iff hS).2 hd.toDeclares, hd.inReach⟩⟩

/-- What is read of a declaration file is the text that was there. -/
theorem Since.read_ok (h : Since s D u) (hS : Apart s D dir S) (hd : Declares s.files S names x)
    (hread : u.files.read u.cwd (Path.join dir (Path.ofSegments names)) = .ok (.text t)) :
    x = .file (.text t) := by
  have hrel := Path.isAbsolute_ofSegments hd.isPlain
  unfold FileSystem.read at hread
  split at hread
  · next q c hf =>
    cases hread
    have hw := (FileSystem.find_ok hf).2.2
    rw [FileSystem.pathNames_join dir hrel, FileSystem.pathNames_ofSegments hd.isPlain] at hw
    obtain ⟨via, S', -, hv, hw⟩ := FileSystem.leads_of_walk_append hd.ne_nil hw
    rw [FileSystem.startOf_join u.cwd dir hrel] at hv
    obtain rfl := h.eq_of_leads hS hv
    have hl := (h.lookup_eq hS (List.suffix_append ..)).trans hd.lookup
    have hr := FileSystem.walk_look_plain (h.linkFree hS) hd.ne_nil hd.isPlain hl hd.ne_directory hw
    exact (Stop.found.inj hr).2.symm
  all_goals cases hread

/-- A scan that succeeds lists the declaration files that were there at first and are near enough, each of
them once. -/
theorem Since.scan_ok (h : Since s D u) (hS : Apart s D dir S)
    (hscan : u.perform (scan dir) = (.ok rels, v)) :
    v = u ∧
      (∀ rel, rel ∈ rels ↔ ∃ names x, Listed s.files dir S names x ∧ Path.ofSegments names = rel) ∧
      rels.Pairwise fun r r' => Text.precedes r r' = true ∧ r ≠ r' := by
  have hback : ∀ names x, Declares u.files S names x → ∀ n ∈ names, '\\' ∉ n := fun names x hd =>
    hS.noBackslash names x ((h.declares_iff hS).1 hd).lookup
  obtain ⟨hv, hthere, rfl⟩ := scan_eq_sort hscan
  obtain ⟨S', hfound⟩ := FileSystem.isDirectory_eq_true_iff.1 hthere
  obtain rfl := h.eq_of_found hS hfound
  have hfree := h.linkFree hS
  refine ⟨hv, fun rel => ?_, (Text.pairwise_sort _).and ?_⟩
  · rw [Text.mem_sort, mem_declarations hfound hfree]
    refine exists_congr fun names => exists_congr fun x => ?_
    rw [h.listed_iff hS]
    refine and_congr_right fun hd => ?_
    rw [slashed_ofSegments (hS.noBackslash _ _ hd.lookup)]
  · exact (Text.sort_perm _).nodup_iff.2 (nodup_declarations hfound hfree hback)

/-! ### Places of copies -/

/-- Plain names are below a plain home. -/
theorem inward_of_plain {home : Text} (hhome : ∀ n ∈ Path.segments home, IsPlain n)
    (hne : names ≠ []) (hplain : ∀ n ∈ names, IsPlain n) :
    Inward home (Path.ofSegments names) := by
  have hsegs := Path.segments_ofSegments (fun n hn => (hplain n hn).slash_not_mem) hne
  refine ⟨?_, Path.isAbsolute_ofSegments hplain, .of_plain fun n hn => ?_⟩
  · rw [← Path.ofSegments_segments home]
    exact Path.isAbsolute_ofSegments hhome
  · rw [hsegs] at hn
    exact (List.mem_append.1 hn).elim (hhome n) (hplain n)

theorem pathNames_eq_segments {home : Text} (hhome : ∀ n ∈ Path.segments home, IsPlain n) :
    pathNames home = Path.segments home :=
  List.filter_eq_self.2 fun n hn => by simpa using (hhome n hn).ne_nil

/-- Plain names below a plain home are names below the base, and plain ones. -/
theorem below_plain {home : Text} (habs : Path.isAbsolute base = true)
    (hhome : ∀ n ∈ Path.segments home, IsPlain n) (hne : names ≠ []) (hplain : ∀ n ∈ names, IsPlain n) :
    Below base (Path.join (Path.join base home) (Path.ofSegments names)) (Path.segments home ++ names) ∧
      ∀ n ∈ Path.segments home ++ names, IsPlain n := by
  have hpath := below_join habs (inward_of_plain hhome hne hplain)
    (by rw [FileSystem.pathNames_ofSegments hplain]; exact hne)
  rw [FileSystem.pathNames_ofSegments hplain, pathNames_eq_segments hhome] at hpath
  exact ⟨hpath, fun n hn => (List.mem_append.1 hn).elim (hhome n) (hplain n)⟩

theorem inward_of_mem_declarations {home rel : Text} (hhome : ∀ n ∈ Path.segments home, IsPlain n)
    (hfound : u.files.find u.cwd .look dir = .ok (.found S .directory)) (hfree : u.files.LinkFree S)
    (hback : ∀ names x, Declares u.files S names x → ∀ n ∈ names, '\\' ∉ n)
    (hrel : rel ∈ declarations u dir) : Inward home rel := by
  obtain ⟨names, x, hd, rfl⟩ := (mem_declarations hfound hfree).1 hrel
  rw [slashed_ofSegments (hback names x hd.toDeclares)]
  exact inward_of_plain hhome hd.ne_nil hd.isPlain

theorem Since.inward {home : Text} (h : Since s D u) (hS : Apart s D dir S)
    (hhome : ∀ n ∈ Path.segments home, IsPlain n) : ∀ rel ∈ declarations u dir, Inward home rel := by
  intro rel hrel
  obtain ⟨S', hfound⟩ := found_of_mem_declarations hrel
  obtain rfl := h.eq_of_found hS hfound
  exact inward_of_mem_declarations hhome hfound (h.linkFree hS)
    (fun names x hd => hS.noBackslash names x ((h.declares_iff hS).1 hd).lookup) hrel

theorem SourceAt.inward {home : Text} (hS : SourceAt s D dir S)
    (hhome : ∀ n ∈ Path.segments home, IsPlain n) : ∀ rel ∈ declarations s dir, Inward home rel := by
  intro rel hrel
  obtain ⟨S', hfound⟩ := found_of_mem_declarations hrel
  obtain ⟨via, hspelt, -⟩ := hS.spelt
  obtain rfl := hspelt.eq_of_found hfound
  exact inward_of_mem_declarations hhome hfound hS.linkFree
    (fun names x hd => hS.noBackslash names x hd.lookup) hrel

end Build

end Rehome
