import Rehome.Path.Basic

/-! File systems as finite trees of directories, files and links. An entry is known by its location,
the names on the way to it with the innermost first; the root is a directory and has no entry. Permissions, files of
several names, special files and writes that fail for want of space are left out. -/

namespace Rehome

/-- The names on the way from the root, the innermost first. -/
abbrev Location := List Text

namespace Location

/-- The absolute path of a location. -/
def path (p : Location) : Text := '/' :: Path.ofSegments p.reverse

end Location

/-- What a file holds: a text, or bytes that are no text. -/
inductive Content where
  | text (t : Text)
  | bytes (b : List UInt8)
  deriving DecidableEq

inductive Node where
  | directory
  | file (content : Content)
  /-- A symbolic link to a path, which need not lead anywhere. -/
  | link (target : Text)
  deriving DecidableEq

/-- A name that a directory may hold. -/
def IsName (n : Text) : Prop :=
  n ≠ [] ∧ n ≠ Path.here ∧ n ≠ Path.up ∧ '/' ∉ n ∧ '\x00' ∉ n

instance (n : Text) : Decidable (IsName n) :=
  inferInstanceAs (Decidable (_ ∧ _ ∧ _ ∧ _ ∧ _))

structure FileSystem where
  entries : List (Location × Node)
  /-- A location has one entry at most. -/
  nodup : (entries.map (·.1)).Nodup
  /-- An entry stands in a directory, under a proper name. -/
  grounded : ∀ e ∈ entries, ∃ n p, e.1 = n :: p ∧ IsName n ∧
    (p = [] ∨ (p, Node.directory) ∈ entries)

namespace FileSystem

def empty : FileSystem where
  entries := []
  nodup := by simp
  grounded := by simp

/-- What stands at a location. -/
def lookup (fs : FileSystem) : Location → Option Node
  | [] => some .directory
  | p => (fs.entries.find? (·.1 = p)).map (·.2)

theorem lookup_eq_some {fs : FileSystem} {p : Location} {x : Node} (hp : p ≠ []) :
    fs.lookup p = some x ↔ (p, x) ∈ fs.entries := by
  have hl : fs.lookup p = (fs.entries.find? (·.1 = p)).map (·.2) := by
    cases p with
    | nil => exact absurd rfl hp
    | cons n p => rfl
  rw [hl, Option.map_eq_some_iff]
  constructor
  · rintro ⟨⟨q, y⟩, h, rfl⟩
    have hq := List.find?_some h
    have hm := List.mem_of_find?_eq_some h
    simp only [decide_eq_true_eq] at hq
    exact hq ▸ hm
  · intro h
    have hu : ∀ es : List (Location × Node), (es.map (·.1)).Nodup → (p, x) ∈ es →
        es.find? (·.1 = p) = some (p, x) := by
      intro es
      induction es with
      | nil => simp
      | cons e es ih =>
        intro hn hm
        rw [List.map_cons, List.nodup_cons] at hn
        by_cases he : e.1 = p
        · rw [List.find?_cons_of_pos (by simpa using he)]
          rcases List.mem_cons.1 hm with rfl | hm
          · rfl
          · exact absurd (List.mem_map.2 ⟨_, hm, rfl⟩) (he ▸ hn.1)
        · rw [List.find?_cons_of_neg (by simpa using he)]
          rcases List.mem_cons.1 hm with rfl | hm
          · exact absurd rfl he
          · exact ih hn.2 hm
    exact ⟨_, hu _ fs.nodup h, rfl⟩

/-- Every entry stands in a directory. -/
theorem lookup_parent {fs : FileSystem} {n : Text} {p : Location} {x : Node}
    (h : fs.lookup (n :: p) = some x) : fs.lookup p = some .directory := by
  obtain ⟨m, q, he, -, hq⟩ := fs.grounded _ ((lookup_eq_some (by simp)).1 h)
  obtain ⟨rfl, rfl⟩ : n = m ∧ p = q := by simpa using he
  rcases hq with rfl | hq
  · rfl
  · cases p with
    | nil => rfl
    | cons m p => exact (lookup_eq_some (by simp)).2 hq

/-- `x` at the name `n` of the directory `p`, in place of a file or link that may stand there.
Nothing happens where there is no such directory, or a directory in the way. -/
def put (fs : FileSystem) (p : Location) (n : Text) (x : Node) : FileSystem :=
  if h : IsName n ∧ fs.lookup p = some .directory ∧ fs.lookup (n :: p) ≠ some .directory then
    { entries := (n :: p, x) :: fs.entries.filter (·.1 ≠ n :: p)
      nodup := by
        rw [List.map_cons, List.nodup_cons]
        exact ⟨by simp, (fs.nodup.sublist ((List.filter_sublist).map _))⟩
      grounded := by
        intro e he
        have keep : ∀ q, q = [] ∨ (q, Node.directory) ∈ fs.entries →
            q = [] ∨ (q, Node.directory) ∈ (n :: p, x) :: fs.entries.filter (·.1 ≠ n :: p) := by
          rintro q (rfl | hq)
          · exact .inl rfl
          · by_cases hqp : q = n :: p
            · subst hqp
              exact absurd ((lookup_eq_some (by simp)).2 hq) h.2.2
            · exact .inr (List.mem_cons_of_mem _ (List.mem_filter.2 ⟨hq, by simpa using hqp⟩))
        rcases List.mem_cons.1 he with rfl | he
        · refine ⟨n, p, rfl, h.1, keep p ?_⟩
          cases p with
          | nil => exact .inl rfl
          | cons m p => exact .inr ((lookup_eq_some (by simp)).1 h.2.1)
        · obtain ⟨m, q, hq, hm, hd⟩ := fs.grounded e (List.mem_filter.1 he).1
          exact ⟨m, q, hq, hm, keep q hd⟩ }
  else fs

/-- The entries at the locations that `keep` holds of. Whatever it keeps it keeps with all that lies
on the way there. -/
def restrict (fs : FileSystem) (keep : Location → Bool)
    (up : ∀ n p, keep (n :: p) = true → p = [] ∨ keep p = true) : FileSystem where
  entries := fs.entries.filter fun e => keep e.1
  nodup := fs.nodup.sublist ((List.filter_sublist).map _)
  grounded := by
    intro e he
    obtain ⟨he, hk⟩ := List.mem_filter.1 he
    obtain ⟨n, p, hp, hn, hd⟩ := fs.grounded e he
    refine ⟨n, p, hp, hn, ?_⟩
    rcases up n p (hp ▸ hk) with h | h
    · exact .inl h
    · exact hd.imp_right fun hd => List.mem_filter.2 ⟨hd, h⟩

/-- Without `p` and everything inside it. -/
def prune (fs : FileSystem) (p : Location) : FileSystem :=
  fs.restrict (fun q => !p.isSuffixOf q) fun n q h => by
    right
    simp only [Bool.not_eq_true', ← Bool.not_eq_true, List.isSuffixOf_iff_suffix] at h ⊢
    exact fun hq => h (hq.trans (List.suffix_cons n q))

/-- Without everything inside `p`. -/
def clear (fs : FileSystem) (p : Location) : FileSystem :=
  fs.restrict (fun q => q = p || !p.isSuffixOf q) fun n q h => by
    right
    simp only [Bool.or_eq_true, decide_eq_true_eq, Bool.not_eq_true', ← Bool.not_eq_true,
      List.isSuffixOf_iff_suffix] at h ⊢
    by_cases hq : q = p
    · exact .inl hq
    · refine .inr fun hs => ?_
      rcases h with rfl | h
      · exact absurd hs.length_le (by simp)
      · exact h (hs.trans (List.suffix_cons n q))

/-- The locations inside `p` at which something other than a directory stands, each as the names on
the way there from `p`. -/
def filesBelow (fs : FileSystem) (p : Location) : List (List Text × Node) :=
  fs.entries.filterMap fun e =>
    if p.isSuffixOf e.1 ∧ e.2 ≠ .directory then
      some ((e.1.take (e.1.length - p.length)).reverse, e.2)
    else none

end FileSystem

end Rehome
