import Rehome.FileSystem.Change
import Rehome.Proofs.FileSystem.Site

/-! What is listed of a directory: all that stands below it and leads to no directory, as far as the paths of
the directories on the way there are not too long. -/

namespace Rehome.FileSystem

variable {fs fs' : FileSystem} {cwd S : Location} {path : Text} {names : List Text} {x : Node}

/-- The names lead from the directory `S` down to the directory `p`, and no link is followed. -/
inductive Enters (fs : FileSystem) (S : Location) : List Text → Location → Prop where
  | start (hdir : fs.lookup S = some .directory) : Enters fs S [] S
  | into {names : List Text} {p : Location} {n : Text} (h : Enters fs S names p)
      (hdir : fs.lookup (n :: p) = some .directory) : Enters fs S (names ++ [n]) (n :: p)

namespace Enters

variable {p : Location}

theorem eq (h : fs.Enters S names p) : p = names.reverse ++ S := by
  induction h with
  | start => rfl
  | into _ _ ih => rw [ih, List.reverse_append, List.append_assoc]; rfl

theorem of_lookup (h : fs.lookup (names.reverse ++ S) = some .directory) : fs.Enters S names (names.reverse ++ S) := by
  induction names using List.reverseRecOn with
  | nil => exact .start h
  | append_singleton names n ih =>
    rw [List.reverse_append, List.append_assoc, List.reverse_singleton, List.singleton_append] at h ⊢
    exact .into (ih (lookup_parent h)) h

/-- A path may follow. -/
theorem leads (h : fs.Enters S names p) (hsize : ∀ n ∈ names, n.byteSize ≤ maxNameBytes) :
    fs.Leads S names [] p := by
  induction h with
  | start => exact .nil _
  | into h hdir ih =>
    obtain ⟨hsize, hn⟩ := List.forall_mem_append.1 hsize
    obtain ⟨-, hhere, hup, -⟩ := isName_of_lookup hdir _ List.mem_cons_self
    exact (ih hsize).append (.down hhere hup (hn _ List.mem_cons_self) hdir (.nil _))

end Enters

/-- The directory that holds the last of the names is near enough to `path` to be looked into. -/
def InReach (path : Text) (names : List Text) : Prop :=
  (Path.descend path names.dropLast).byteSize ≤ maxPathBytes

instance (path : Text) (names : List Text) : Decidable (InReach path names) :=
  inferInstanceAs (Decidable (_ ≤ _))

/-- An entry that is no directory, and no link to one. -/
structure IsFile (fs : FileSystem) (cwd : Location) (path : Text) (S : Location) (names : List Text) (x : Node) :
    Prop where
  lookup : fs.lookup (names.reverse ++ S) = some x
  ne_directory : x ≠ .directory
  link : ∀ t, x = .link t → fs.isDirectory cwd (Path.descend path names) = false

theorem isListed_eq_true_iff : fs.isListed cwd path names x = true ↔
    InReach path names ∧ ∀ t, x = .link t → fs.isDirectory cwd (Path.descend path names) = false := by
  unfold isListed InReach Path.descend
  rw [Bool.and_eq_true, decide_eq_true_eq]
  refine and_congr_right fun _ => ?_
  cases x with
  | link t => simp
  | _ => simp

theorem mem_files_of_found (hfound : fs.find cwd .look path = .ok (.found S .directory)) :
    names ∈ fs.files cwd path ↔ InReach path names ∧ ∃ x, fs.IsFile cwd path S names x := by
  unfold files
  rw [hfound]
  dsimp only
  rw [List.mem_map]
  constructor
  · rintro ⟨⟨names, x⟩, hmem, rfl⟩
    obtain ⟨hbelow, hlisted⟩ := List.mem_filter.1 hmem
    obtain ⟨hdir, hlookup⟩ := mem_filesBelow.1 hbelow
    obtain ⟨hreach, hlink⟩ := isListed_eq_true_iff.1 hlisted
    exact ⟨hreach, x, hlookup, hdir, hlink⟩
  · rintro ⟨hreach, x, hx⟩
    have hbelow := mem_filesBelow.2 ⟨hx.ne_directory, hx.lookup⟩
    exact ⟨⟨names, x⟩, List.mem_filter.2 ⟨hbelow, isListed_eq_true_iff.2 ⟨hreach, hx.link⟩⟩, rfl⟩

theorem found_of_mem_files (h : names ∈ fs.files cwd path) :
    ∃ S, fs.find cwd .look path = .ok (.found S .directory) := by
  unfold files at h
  split at h
  · next S hfound => exact ⟨S, hfound⟩
  · cases h

/-- Each file is listed once. -/
theorem nodup_files (fs : FileSystem) (cwd : Location) (path : Text) : (fs.files cwd path).Nodup := by
  unfold files
  split
  · next S hfound =>
    refine ((nodup_filesBelow fs S).filter _).map_on ?_
    rintro ⟨names, x⟩ hx ⟨names', x'⟩ hx' rfl
    have hl := (mem_filesBelow.1 (List.mem_filter.1 hx).1).2
    rw [(mem_filesBelow.1 (List.mem_filter.1 hx').1).2] at hl
    rw [Option.some.inj hl]
  · exact List.nodup_nil

theorem isFile_iff_of_linkFree (hfree : fs.LinkFree S) :
    fs.IsFile cwd path S names x ↔ fs.lookup (names.reverse ++ S) = some x ∧ x ≠ .directory := by
  refine ⟨fun h => ⟨h.lookup, h.ne_directory⟩, fun ⟨hl, hdir⟩ => ⟨hl, hdir, ?_⟩⟩
  rintro t rfl
  exact absurd hl (hfree _ t (List.suffix_append ..))

/-- Of a directory without links is listed what stands there, wherever the directory is seen from. -/
theorem files_perm {cwd' : Location} (hfound : fs.find cwd .look path = .ok (.found S .directory))
    (hfound' : fs'.find cwd' .look path = .ok (.found S .directory)) (hfree : fs.LinkFree S)
    (hsame : ∀ q, S <:+ q → fs'.lookup q = fs.lookup q) :
    (fs'.files cwd' path).Perm (fs.files cwd path) := by
  have hfree' : fs'.LinkFree S := fun q t hq => by
    rw [hsame q hq]
    exact hfree q t hq
  refine (List.perm_ext_iff_of_nodup (nodup_files ..) (nodup_files ..)).2 fun names => ?_
  rw [mem_files_of_found hfound, mem_files_of_found hfound']
  simp only [isFile_iff_of_linkFree hfree, isFile_iff_of_linkFree hfree', hsame _ (List.suffix_append ..)]

end Rehome.FileSystem
