import Rehome.FileSystem.Change
import Rehome.Proofs.FileSystem.Site
import Rehome.Proofs.FileSystem.Walk

/-! Removing a tree takes away what its path leads to and nothing else. -/

namespace Rehome.FileSystem

open Rehome.Path (IsPlain)

variable {fs : FileSystem} {cwd D q : Location} {path : Text}

/-- The tree at `D` is gone. -/
structure Removed (fs : FileSystem) (D : Location) (fs' : FileSystem) : Prop where
  inside : ∀ q, D <:+ q → q ≠ [] → fs'.lookup q = none
  outside : ∀ q, ¬ D <:+ q → fs'.lookup q = fs.lookup q

theorem Removed.lookup_of_suffix {fs' : FileSystem} (h : fs.Removed D fs') (hq : D <:+ q) :
    fs'.lookup q = if q = [] then some .directory else none := by
  split
  · next hroot => rw [hroot, lookup_root]
  · next hroot => exact h.inside q hq hroot

theorem Removed.linkFree {fs' : FileSystem} (h : fs.Removed D fs') : fs'.LinkFree D := by
  intro q t hq
  rw [h.lookup_of_suffix hq]
  split <;> simp

/-- Whatever is left when the tree is gone stands wherever nothing that stood outside it was taken away. -/
theorem Removed.extends {t fs' : FileSystem} (h : fs.Removed D t)
    (hout : ∀ q, ¬ D <:+ q → fs.lookup q = none ∨ fs'.lookup q = fs.lookup q) : t.Extends fs' := by
  intro q x hq
  by_cases hroot : q = []
  · subst hroot
    exact hq
  by_cases hD : D <:+ q
  · rw [h.inside q hD hroot] at hq
    cases hq
  · rw [h.outside q hD] at hq
    rcases hout q hD with hnone | he
    · rw [hq] at hnone
      cases hnone
    · rw [he, hq]

theorem removed_prune_clear (fs : FileSystem) (D : Location) :
    fs.Removed D ((fs.clear D).prune D) := by
  refine ⟨fun q hq hne => ?_, fun q hq => ?_⟩
  · by_cases hD : D = []
    · subst hD
      rw [prune, lookup_restrict hne, if_neg (by simp)]
    · exact lookup_prune_of_suffix hD hq
  · rw [lookup_prune_of_not_suffix hq, lookup_clear_of_not_suffix hq]

theorem removed_of_none (h : fs.lookup D = none) : fs.Removed D fs := by
  refine ⟨fun q hq _ => ?_, fun _ _ => rfl⟩
  by_cases he : D = q
  · exact he ▸ h
  · exact lookup_eq_none_of_suffix (by simp [h]) hq he

theorem clear_extends (fs : FileSystem) (D : Location) : (fs.clear D).Extends fs := by
  intro q x hq
  by_cases hs : D <:+ q
  · by_cases he : q = D
    · rwa [he, lookup_clear_self, ← he] at hq
    · rw [lookup_clear_of_suffix hs he] at hq
      cases hq
  · rwa [lookup_clear_of_not_suffix hs] at hq

theorem prune_extends (fs : FileSystem) (D : Location) : (fs.prune D).Extends fs := by
  intro q x hq
  by_cases hroot : q = []
  · rwa [hroot, lookup_root, ← lookup_root fs, ← hroot] at hq
  · rw [prune, lookup_restrict hroot] at hq
    exact (Option.ite_none_right_eq_some.1 hq).2

theorem removeTree_extends (fs : FileSystem) (cwd : Location) (path : Text) :
    (fs.removeTree cwd path).2.Extends fs := by
  unfold removeTree
  split
  · next D _ =>
    dsimp only
    split
    · exact fun q x hq => clear_extends fs D q x (prune_extends _ _ q x hq)
    · exact clear_extends fs D
  all_goals exact fun _ _ hq => hq

/-- Plain names do not end in `.` or `..`. -/
theorem not_dotted_of_plain {names : List Text} (hplain : ∀ n ∈ names, IsPlain n) :
    ¬ (names.getLast? = some Path.here ∨ names.getLast? = some Path.up) := by
  rintro (h | h)
  · exact (hplain _ (List.mem_of_getLast? h)).ne_here rfl
  · exact (hplain _ (List.mem_of_getLast? h)).ne_up rfl

theorem leads_of_nameDirectory (hplain : ∀ n ∈ pathNames path, IsPlain n)
    (h : fs.nameDirectory cwd path = .ok q) :
    ∃ via, fs.Leads (startOf cwd path) (pathNames path) via q := by
  unfold nameDirectory at h
  rw [if_neg (not_dotted_of_plain hplain)] at h
  split at h
  · next hf =>
    cases h
    obtain ⟨via, -, hv⟩ := leads_of_find hf
    exact ⟨via, hv⟩
  all_goals cases h

/-- A removal leaves everything, or takes away what the path leads to, or stops there with nothing left
inside. -/
theorem removeTree_cases (fs : FileSystem) (cwd : Location) (hplain : ∀ n ∈ pathNames path, IsPlain n) :
    (∃ e, fs.removeTree cwd path = (.error e, fs)) ∨
      ∃ D via, fs.Leads (startOf cwd path) (pathNames path) via D ∧
        ((∃ e, fs.removeTree cwd path = (.error e, fs.clear D)) ∨
          ∃ via, (fs.clear D).Leads (startOf cwd path) (pathNames path) via D ∧
            fs.removeTree cwd path = (.ok (), (fs.clear D).prune D)) := by
  unfold removeTree
  split
  · next D hf =>
    obtain ⟨via, -, hv⟩ := leads_of_find hf
    refine .inr ⟨D, via, hv, ?_⟩
    dsimp only
    split
    · next q hq =>
      obtain ⟨via', hv'⟩ := leads_of_nameDirectory hplain hq
      obtain rfl := ((hv'.of_extends (clear_extends fs D)).deterministic hv).2
      exact .inr ⟨via', hv', rfl⟩
    · next e _ => exact .inl ⟨_, rfl⟩
  all_goals exact .inl ⟨_, rfl⟩

section Gone

variable {fs' : FileSystem} {n : Text} {names rest : List Text} {via : List Location}
  {dir p D' : Location}

/-- What leads somewhere without the tree led there with it, and with what it held gone. -/
theorem Removed.leads_clear (hgone : fs.Removed D fs') (hD : D ≠ [])
    (h : fs'.Leads dir names via p) : (fs.clear D).Leads dir names via p := by
  refine h.mono fun q x hq _ => ?_
  have hout : ¬ D <:+ q := by
    intro hs
    have hne : q ≠ [] := fun he => hD (List.suffix_nil.1 (he ▸ hs))
    rw [hgone.inside q hs hne] at hq
    cases hq
  rw [lookup_clear_of_not_suffix hout, ← hgone.outside q hout, hq]

/-- A name that is missing without the tree, and not before, is that of the tree. -/
theorem Removed.eq_of_lookup (hgone : fs.Removed D fs') (hthere : (fs.clear D).lookup q ≠ none)
    (hnone : fs'.lookup q = none) : q = D := by
  have hs : D <:+ q := by
    by_contra hs
    rw [lookup_clear_of_not_suffix hs, ← hgone.outside q hs] at hthere
    exact hthere hnone
  by_contra he
  exact hthere (lookup_clear_of_suffix hs he)

/-- Once nothing is inside the directory that plain names lead to, they end with its own. -/
theorem Leads.eq_nil_of_clear (h : (fs.clear (n :: p)).Leads p (n :: rest) via (n :: p))
    (hp : (fs.clear (n :: p)).lookup p = some .directory) (hplain : ∀ k ∈ n :: rest, IsPlain k) :
    rest = [] := by
  have hn := hplain n List.mem_cons_self
  have hdir := h.lookup_eq hp
  cases h with
  | here => exact absurd rfl hn.ne_here
  | up => exact absurd rfl hn.ne_up
  | link _ _ _ hlink => rw [hlink] at hdir; cases hdir
  | down _ _ _ _ h =>
    cases rest with
    | nil => rfl
    | cons k rest =>
      have hk := h.ne_none (hplain k (by simp))
      exact absurd (lookup_clear_of_suffix (List.suffix_cons _ _) (List.cons_ne_self _ _)) hk

/-- Once the tree that the names lead to is gone, the names have no other site. -/
theorem Site.eq_of_removed (hplain : ∀ n ∈ names, IsPlain n)
    (hv : (fs.clear D).Leads [] names via D) (hgone : fs.Removed D fs')
    (h : fs'.Site [] names D') : D' = D := by
  by_cases hD : D = []
  · subst hD
    cases names with
    | nil => exact h.unique (Leads.nil []).site
    | cons n rest =>
      exact absurd (lookup_clear_of_suffix List.nil_suffix (List.cons_ne_nil n []))
        (hv.ne_none (hplain n List.mem_cons_self))
  obtain ⟨init, rest, via', p, rfl, hv', rfl, hrest, hnone⟩ := h
  obtain ⟨p', v₁, v₂, -, h₁, h₂⟩ := hv.split
  obtain rfl := (h₁.deterministic (hgone.leads_clear hD hv')).2
  cases rest with
  | nil =>
    cases h₂
    have hdir := hv'.lookup_eq rfl
    rw [hgone.inside D (List.suffix_refl _) hD] at hdir
    cases hdir
  | cons n rest =>
    obtain rfl : n :: p' = D :=
      hgone.eq_of_lookup (h₂.ne_none (hrest n List.mem_cons_self)) (hnone n rfl)
    obtain rfl := h₂.eq_nil_of_clear (h₁.lookup_eq rfl) hrest
    rfl

end Gone

end Rehome.FileSystem
