import Rehome.Proofs.FileSystem.Lookup
import Rehome.Proofs.FileSystem.Names

/-! Where names lead from a directory, and by way of which links. -/

namespace Rehome

open Rehome.Path (IsPlain)

namespace FileSystem

/-- Where a path starts that is met in the directory `dir`. -/
def startOf (dir : Location) (path : Text) : Location := if Path.isAbsolute path then [] else dir

theorem startOf_of_isAbsolute {cwd : Location} {path : Text} (h : Path.isAbsolute path = true) :
    startOf cwd path = [] := if_pos h

theorem startOf_join (cwd : Location) (p : Text) {q : Text} (hq : Path.isAbsolute q = false) :
    startOf cwd (Path.join p q) = startOf cwd p := by
  rw [startOf, startOf, Path.isAbsolute_join p hq]

/-- From the directory `dir` the names lead to the directory `p`, by way of the links at `via`. -/
inductive Leads (fs : FileSystem) : Location → List Text → List Location → Location → Prop where
  | nil (dir : Location) : Leads fs dir [] [] dir
  | here {dir p : Location} {rest : List Text} {via : List Location}
      (h : Leads fs dir rest via p) : Leads fs dir (Path.here :: rest) via p
  | up {dir p : Location} {rest : List Text} {via : List Location}
      (h : Leads fs dir.tail rest via p) : Leads fs dir (Path.up :: rest) via p
  | down {dir p : Location} {n : Text} {rest : List Text} {via : List Location}
      (hhere : n ≠ Path.here) (hup : n ≠ Path.up) (hsize : n.byteSize ≤ maxNameBytes)
      (hdir : fs.lookup (n :: dir) = some .directory)
      (h : Leads fs (n :: dir) rest via p) : Leads fs dir (n :: rest) via p
  | link {dir p : Location} {n target : Text} {rest : List Text} {via : List Location}
      (hhere : n ≠ Path.here) (hup : n ≠ Path.up) (hsize : n.byteSize ≤ maxNameBytes)
      (hlink : fs.lookup (n :: dir) = some (.link target))
      (h : Leads fs (startOf dir target) (pathNames target ++ rest) via p) :
      Leads fs dir (n :: rest) ((n :: dir) :: via) p

namespace Leads

variable {fs : FileSystem} {dir p q : Location} {n : Text} {names rest : List Text}
  {via via' : List Location}

theorem deterministic (h : fs.Leads dir names via p) (h' : fs.Leads dir names via' q) :
    via = via' ∧ p = q := by
  induction h generalizing via' with
  | nil => cases h'; exact ⟨rfl, rfl⟩
  | here _ ih =>
    cases h' with
    | here h' => exact ih h'
    | down hhere => exact absurd rfl hhere
    | link hhere => exact absurd rfl hhere
  | up _ ih =>
    cases h' with
    | up h' => exact ih h'
    | down _ hup => exact absurd rfl hup
    | link _ hup => exact absurd rfl hup
  | down hhere hup _ hdir _ ih =>
    cases h' with
    | here => exact absurd rfl hhere
    | up => exact absurd rfl hup
    | down _ _ _ _ h' => exact ih h'
    | link _ _ _ hlink => rw [hdir] at hlink; cases hlink
  | link hhere hup _ hlink _ ih =>
    cases h' with
    | here => exact absurd rfl hhere
    | up => exact absurd rfl hup
    | down _ _ _ hdir => rw [hlink] at hdir; cases hdir
    | link _ _ _ hlink' h' =>
      rw [hlink] at hlink'
      cases hlink'
      obtain ⟨rfl, rfl⟩ := ih h'
      exact ⟨rfl, rfl⟩

theorem append (h : fs.Leads dir names via p) (h' : fs.Leads p rest via' q) :
    fs.Leads dir (names ++ rest) (via ++ via') q := by
  induction h with
  | nil => exact h'
  | here _ ih => exact .here (ih h')
  | up _ ih => exact .up (ih h')
  | down hhere hup hsize hdir _ ih => exact .down hhere hup hsize hdir (ih h')
  | link hhere hup hsize hlink _ ih =>
    exact .link hhere hup hsize hlink (List.append_assoc .. ▸ ih h')

theorem split (h : fs.Leads dir (names ++ rest) via q) :
    ∃ p via₁ via₂, via = via₁ ++ via₂ ∧ fs.Leads dir names via₁ p ∧ fs.Leads p rest via₂ q := by
  generalize hall : names ++ rest = all at h
  induction h generalizing names with
  | nil dir =>
    obtain ⟨rfl, rfl⟩ := List.append_eq_nil_iff.1 hall
    exact ⟨dir, [], [], rfl, .nil dir, .nil dir⟩
  | @here dir _ _ via h ih =>
    cases names with
    | nil =>
      obtain rfl : rest = _ := hall
      exact ⟨dir, [], via, rfl, .nil dir, .here h⟩
    | cons n names =>
      obtain ⟨rfl, hrest⟩ := List.cons.inj hall
      obtain ⟨p, v₁, v₂, rfl, h₁, h₂⟩ := ih hrest
      exact ⟨p, v₁, v₂, rfl, .here h₁, h₂⟩
  | @up dir _ _ via h ih =>
    cases names with
    | nil =>
      obtain rfl : rest = _ := hall
      exact ⟨dir, [], via, rfl, .nil dir, .up h⟩
    | cons n names =>
      obtain ⟨rfl, hrest⟩ := List.cons.inj hall
      obtain ⟨p, v₁, v₂, rfl, h₁, h₂⟩ := ih hrest
      exact ⟨p, v₁, v₂, rfl, .up h₁, h₂⟩
  | @down dir _ _ _ via hhere hup hsize hdir h ih =>
    cases names with
    | nil =>
      obtain rfl : rest = _ := hall
      exact ⟨dir, [], via, rfl, .nil dir, .down hhere hup hsize hdir h⟩
    | cons n names =>
      obtain ⟨rfl, hrest⟩ := List.cons.inj hall
      obtain ⟨p, v₁, v₂, rfl, h₁, h₂⟩ := ih hrest
      exact ⟨p, v₁, v₂, rfl, .down hhere hup hsize hdir h₁, h₂⟩
  | @link dir _ _ target _ via hhere hup hsize hlink h ih =>
    cases names with
    | nil =>
      obtain rfl : rest = _ := hall
      exact ⟨dir, [], _, rfl, .nil dir, .link hhere hup hsize hlink h⟩
    | cons n names =>
      obtain ⟨rfl, rfl⟩ := List.cons.inj hall
      obtain ⟨p, v₁, v₂, rfl, h₁, h₂⟩ := ih (List.append_assoc ..)
      exact ⟨p, _ :: v₁, v₂, rfl, .link hhere hup hsize hlink h₁, h₂⟩

/-- What is on the way decides where names lead. -/
theorem mono {fs' : FileSystem}
    (hfs : ∀ q x, fs.lookup q = some x → (∀ c, x ≠ .file c) → fs'.lookup q = some x)
    (h : fs.Leads dir names via p) : fs'.Leads dir names via p := by
  induction h with
  | nil dir => exact .nil dir
  | here _ ih => exact .here ih
  | up _ ih => exact .up ih
  | down hhere hup hsize hdir _ ih => exact .down hhere hup hsize (hfs _ _ hdir (by simp)) ih
  | link hhere hup hsize hlink _ ih => exact .link hhere hup hsize (hfs _ _ hlink (by simp)) ih

theorem of_extends {fs' : FileSystem} (h : fs.Leads dir names via p) (hext : fs.Extends fs') :
    fs'.Leads dir names via p := h.mono fun q x hq _ => hext q x hq

theorem lookup_tail (h : fs.lookup dir = some .directory) :
    fs.lookup dir.tail = some .directory := by
  cases dir with
  | nil => rfl
  | cons n dir => exact lookup_parent h

theorem lookup_startOf (h : fs.lookup dir = some .directory) (path : Text) :
    fs.lookup (startOf dir path) = some .directory := by
  unfold startOf
  split
  · rfl
  · exact h

theorem lookup_eq (h : fs.Leads dir names via p) (hdir : fs.lookup dir = some .directory) :
    fs.lookup p = some .directory := by
  induction h with
  | nil => exact hdir
  | here _ ih => exact ih hdir
  | up _ ih => exact ih (lookup_tail hdir)
  | down _ _ _ hn _ ih => exact ih hn
  | link _ _ _ hlink _ ih => exact ih (lookup_startOf (lookup_parent hlink) _)

/-- Each name on the way is that of an entry, and not too long. -/
theorem exists_entry (h : fs.Leads dir names via p) :
    ∀ n ∈ names, n ≠ Path.here → n ≠ Path.up →
      n.byteSize ≤ maxNameBytes ∧ ∃ d x, fs.lookup (n :: d) = some x := by
  induction h with
  | nil => simp
  | here _ ih => exact List.forall_mem_cons.2 ⟨fun h => absurd rfl h, ih⟩
  | up _ ih => exact List.forall_mem_cons.2 ⟨fun _ h => absurd rfl h, ih⟩
  | down _ _ hsize hdir _ ih => exact List.forall_mem_cons.2 ⟨fun _ _ => ⟨hsize, _, _, hdir⟩, ih⟩
  | link _ _ hsize hlink _ ih =>
    exact List.forall_mem_cons.2
      ⟨fun _ _ => ⟨hsize, _, _, hlink⟩, fun n hn => ih n (List.mem_append_right _ hn)⟩

/-- Names that lead somewhere can be those of entries. -/
theorem isName (h : fs.Leads dir names via p) :
    ∀ n ∈ names, n ≠ Path.here → n ≠ Path.up → IsName n := by
  intro n hn hhere hup
  obtain ⟨-, d, x, hl⟩ := h.exists_entry n hn hhere hup
  exact isName_of_lookup hl n List.mem_cons_self

theorem byteSize_le (h : fs.Leads dir names via p) :
    ∀ n ∈ names, n ≠ Path.here → n ≠ Path.up → n.byteSize ≤ maxNameBytes :=
  fun n hn hhere hup => (h.exists_entry n hn hhere hup).1

/-- What is passed on the way are links. -/
theorem link_of_mem (h : fs.Leads dir names via p) :
    ∀ l ∈ via, ∃ target, fs.lookup l = some (.link target) := by
  induction h with
  | nil => simp
  | here _ ih => exact ih
  | up _ ih => exact ih
  | down _ _ _ _ _ ih => exact ih
  | link _ _ _ hlink _ ih => exact List.forall_mem_cons.2 ⟨⟨_, hlink⟩, ih⟩

/-- Plain names lead straight down to a directory that stands there. -/
theorem straight (h : fs.Leads dir names via p) (hplain : ∀ n ∈ names, IsPlain n)
    (hdir : fs.lookup (names.reverse ++ dir) = some .directory) :
    via = [] ∧ p = names.reverse ++ dir := by
  induction names generalizing dir with
  | nil =>
    cases h
    exact ⟨rfl, rfl⟩
  | cons n rest ih =>
    have hn := hplain n List.mem_cons_self
    rw [List.reverse_cons, List.append_assoc, List.singleton_append] at hdir ⊢
    have hdir' : fs.lookup (n :: dir) = some .directory := by
      by_cases hnil : rest = []
      · simpa [hnil] using hdir
      · exact lookup_of_append hdir (by simpa using hnil)
    cases h with
    | here => exact absurd rfl hn.ne_here
    | up => exact absurd rfl hn.ne_up
    | down _ _ _ _ h => exact ih h (fun k hk => hplain k (List.mem_cons_of_mem _ hk)) hdir
    | link _ _ _ hlink =>
      rw [hdir'] at hlink
      cases hlink

end Leads

end FileSystem

end Rehome
