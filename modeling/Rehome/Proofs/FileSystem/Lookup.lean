import Mathlib.Data.List.Infix
import Mathlib.Data.List.Nodup
import Rehome.FileSystem.Basic

/-! What stands where after a change. All that is known of a file system is told by its lookups, so
the changes are described by theirs. -/

namespace Rehome.FileSystem

variable {fs : FileSystem} {p q : Location} {n : Text} {x : Node}

@[simp] theorem lookup_root (fs : FileSystem) : fs.lookup [] = some .directory := rfl

theorem lookup_congr {fs' : FileSystem} (hq : q ≠ [])
    (h : ∀ x, (q, x) ∈ fs'.entries ↔ (q, x) ∈ fs.entries) : fs'.lookup q = fs.lookup q :=
  Option.ext fun x => by rw [lookup_eq_some hq, lookup_eq_some hq, h]

theorem lookup_of_append {d : Location} (h : fs.lookup (d ++ p) = some x) (hd : d ≠ []) :
    fs.lookup p = some .directory := by
  induction d generalizing x with
  | nil => exact absurd rfl hd
  | cons n d ih =>
    have hparent := lookup_parent h
    by_cases hd' : d = []
    · rw [hd'] at hparent
      exact hparent
    · exact ih hparent hd'

/-- On the way to what is there everything is a directory. -/
theorem lookup_of_suffix (h : fs.lookup q = some x) (hs : p <:+ q) (hne : p ≠ q) :
    fs.lookup p = some .directory := by
  obtain ⟨d, rfl⟩ := hs
  refine lookup_of_append h ?_
  rintro rfl
  exact hne rfl

/-- On the way to a directory everything is one, itself included. -/
theorem lookup_directory_of_suffix (h : fs.lookup q = some .directory) (hs : p <:+ q) :
    fs.lookup p = some .directory := by
  by_cases hne : p = q
  · rwa [hne]
  · exact lookup_of_suffix h hs hne

/-- Below what is missing, and below a file or a link, there is nothing. -/
theorem lookup_eq_none_of_suffix (h : fs.lookup p ≠ some .directory) (hs : p <:+ q) (hne : p ≠ q) :
    fs.lookup q = none := by
  by_contra hq
  obtain ⟨x, hx⟩ := Option.ne_none_iff_exists'.1 hq
  exact h (lookup_of_suffix hx hs hne)

theorem isName_of_lookup (h : fs.lookup p = some x) : ∀ n ∈ p, IsName n := by
  induction p generalizing x with
  | nil => simp
  | cons n p ih =>
    obtain ⟨m, r, he, hm, -⟩ := fs.grounded _ ((lookup_eq_some (by simp)).1 h)
    obtain ⟨rfl, rfl⟩ : n = m ∧ p = r := by simpa using he
    exact List.forall_mem_cons.2 ⟨hm, ih (lookup_parent h)⟩

/-- Whatever stands in `fs` stands in `fs'`, too. -/
def Extends (fs fs' : FileSystem) : Prop :=
  ∀ q x, fs.lookup q = some x → fs'.lookup q = some x

/-- Whatever leads on in `fs`, a directory or a link, stands in `fs'`, too. -/
def KeepsWays (fs fs' : FileSystem) : Prop :=
  ∀ q x, fs.lookup q = some x → (∀ c, x ≠ .file c) → fs'.lookup q = some x

/-! ### Putting -/

/-- There is room for a file or a link of this name in `p`, which may replace another. -/
def HasRoom (fs : FileSystem) (p : Location) (n : Text) : Prop :=
  IsName n ∧ fs.lookup p = some .directory ∧ fs.lookup (n :: p) ≠ some .directory

theorem put_of_not_hasRoom (h : ¬ fs.HasRoom p n) : fs.put p n x = fs := dif_neg h

theorem mem_entries_put (h : fs.HasRoom p n) {y : Node} :
    (q, y) ∈ (fs.put p n x).entries ↔
      q = n :: p ∧ y = x ∨ q ≠ n :: p ∧ (q, y) ∈ fs.entries := by
  have he : (fs.put p n x).entries = (n :: p, x) :: fs.entries.filter (·.1 ≠ n :: p) := by
    have h' : IsName n ∧ fs.lookup p = some .directory ∧ fs.lookup (n :: p) ≠ some .directory := h
    rw [put, dif_pos h']
  rw [he, List.mem_cons, List.mem_filter, Prod.mk.injEq]
  simp only [ne_eq, decide_eq_true_eq]
  tauto

theorem lookup_put_self (h : fs.HasRoom p n) : (fs.put p n x).lookup (n :: p) = some x :=
  (lookup_eq_some (by simp)).2 ((mem_entries_put h).2 (.inl ⟨rfl, rfl⟩))

theorem lookup_put_of_ne (hq : q ≠ n :: p) : (fs.put p n x).lookup q = fs.lookup q := by
  by_cases h : fs.HasRoom p n
  · by_cases hroot : q = []
    · rw [hroot, lookup_root, lookup_root]
    · exact lookup_congr hroot fun y => by rw [mem_entries_put h]; simp [hq]
  · rw [put_of_not_hasRoom h]

/-- No link leads along a path that holds a NUL. No such link can be made. -/
def ProperLinks (fs : FileSystem) : Prop := ∀ q t, fs.lookup q = some (.link t) → '\x00' ∉ t

theorem ProperLinks.of_extends {fs' : FileSystem} (h : fs.ProperLinks) (hext : fs'.Extends fs) : fs'.ProperLinks :=
  fun q t hq => h q t (hext q _ hq)

theorem ProperLinks.put (h : fs.ProperLinks) (hx : ∀ t, x ≠ .link t) (d : Location) (n : Text) :
    (fs.put d n x).ProperLinks := by
  intro q t hq
  by_cases hroom : fs.HasRoom d n
  swap
  · rw [put_of_not_hasRoom hroom] at hq
    exact h q t hq
  by_cases he : q = n :: d
  · rw [he, lookup_put_self hroom] at hq
    exact absurd (Option.some.inj hq) (hx t)
  · rw [lookup_put_of_ne he] at hq
    exact h q t hq

/-! ### Removing -/

theorem lookup_restrict {keep : Location → Bool}
    {up : ∀ n p, keep (n :: p) = true → p = [] ∨ keep p = true} (hq : q ≠ []) :
    (fs.restrict keep up).lookup q = if keep q = true then fs.lookup q else none := by
  ext x
  rw [lookup_eq_some hq]
  show (q, x) ∈ fs.entries.filter (fun e => keep e.1) ↔ _
  rw [List.mem_filter]
  split
  · next h => rw [lookup_eq_some hq]; simp [h]
  · next h => simp [h]

theorem lookup_prune_of_suffix (hp : p ≠ []) (h : p <:+ q) : (fs.prune p).lookup q = none := by
  have hq : q ≠ [] := by
    rintro rfl
    exact hp (List.suffix_nil.1 h)
  rw [prune, lookup_restrict hq, if_neg (by simpa using h)]

theorem lookup_prune_of_not_suffix (h : ¬ p <:+ q) : (fs.prune p).lookup q = fs.lookup q := by
  by_cases hq : q = []
  · rw [hq, lookup_root, lookup_root]
  · rw [prune, lookup_restrict hq, if_pos (by simpa [← Bool.not_eq_true] using h)]

theorem lookup_clear_self : (fs.clear p).lookup p = fs.lookup p := by
  by_cases hp : p = []
  · rw [hp, lookup_root, lookup_root]
  · rw [clear, lookup_restrict hp, if_pos (by simp)]

theorem lookup_clear_of_suffix (h : p <:+ q) (hne : q ≠ p) : (fs.clear p).lookup q = none := by
  have hq : q ≠ [] := by
    rintro rfl
    exact hne (List.suffix_nil.1 h).symm
  rw [clear, lookup_restrict hq, if_neg (by simpa using ⟨hne, h⟩)]

theorem lookup_clear_of_not_suffix (h : ¬ p <:+ q) : (fs.clear p).lookup q = fs.lookup q := by
  by_cases hq : q = []
  · rw [hq, lookup_root, lookup_root]
  · rw [clear, lookup_restrict hq, if_pos (by simp [← Bool.not_eq_true, h])]

/-! ### Files below a directory -/

theorem mem_filesBelow {names : List Text} :
    (names, x) ∈ fs.filesBelow p ↔
      x ≠ .directory ∧ fs.lookup (names.reverse ++ p) = some x := by
  rw [filesBelow, List.mem_filterMap]
  constructor
  · rintro ⟨⟨q, y⟩, he, hq⟩
    simp only [List.isSuffixOf_iff_suffix, ne_eq, Option.ite_none_right_eq_some, Option.some.injEq,
      Prod.mk.injEq] at hq
    obtain ⟨⟨⟨d, rfl⟩, hy⟩, rfl, rfl⟩ := hq
    have hd : ((d ++ p).take ((d ++ p).length - p.length)).reverse.reverse = d := by simp
    refine ⟨hy, ?_⟩
    rw [hd, lookup_eq_some]
    · exact he
    · obtain ⟨n, r, hn, -⟩ := fs.grounded _ he
      simp_all
  · rintro ⟨hx, hl⟩
    have hne : names.reverse ++ p ≠ [] := by
      intro hnil
      rw [hnil, lookup_root] at hl
      exact hx (Option.some.inj hl).symm
    refine ⟨(names.reverse ++ p, x), (lookup_eq_some hne).1 hl, ?_⟩
    simp [hx]

theorem nodup_filesBelow (fs : FileSystem) (p : Location) : (fs.filesBelow p).Nodup := by
  have hn : fs.entries.Nodup := fs.nodup.of_map
  refine hn.filterMap ?_
  rintro ⟨q, y⟩ ⟨q', y'⟩ ⟨names, x⟩ h h'
  simp only [List.isSuffixOf_iff_suffix, Option.mem_def, Option.ite_none_right_eq_some,
    Option.some.injEq, Prod.mk.injEq] at h h'
  obtain ⟨⟨⟨d, rfl⟩, -⟩, hd, rfl⟩ := h
  obtain ⟨⟨⟨d', rfl⟩, -⟩, hd', rfl⟩ := h'
  have : d = d' := by simpa using hd.trans hd'.symm
  rw [this]

end Rehome.FileSystem
