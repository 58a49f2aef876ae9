import Rehome.Proofs.FileSystem.Site
import Rehome.Proofs.FileSystem.Walk
import Rehome.Proofs.Program.Perform

/-! Directories that were made on one way. Making the directories of a path, from the outermost missing
one on, changes nothing but what is missing there. -/

namespace Rehome

namespace FileSystem

open Rehome.Path (IsPlain)

/-- `fs` is `fs₀` with directories made that were missing on the way to `P`, the site of the names. -/
structure Grown (fs₀ : FileSystem) (names : List Text) (P : Location) (fs : FileSystem) : Prop where
  site : fs.Site [] names P
  changed : ∀ q, fs.lookup q = fs₀.lookup q ∨
    q <:+ P ∧ fs₀.lookup q = none ∧ fs.lookup q = some .directory

namespace Grown

variable {fs₀ fs : FileSystem} {names pre : List Text} {P d : Location} {n : Text}
  {via : List Location}

theorem refl (h : fs.Site [] names P) : Grown fs names P fs := ⟨h, fun _ => .inl rfl⟩

theorem put (h : Grown fs₀ names P fs) (hv : fs.Leads [] pre via d) (hpre : pre ++ [n] <+: names)
    (hn : IsPlain n) (hsize : n.byteSize ≤ maxNameBytes) (hnone : fs.lookup (n :: d) = none) :
    Grown fs₀ names P (fs.put d n .directory) := by
  obtain ⟨hsite, hon⟩ := h.site.put_directory hv hpre hn hsize hnone
  refine ⟨hsite, fun q => ?_⟩
  by_cases hroom : fs.HasRoom d n
  swap
  · rw [put_of_not_hasRoom hroom]
    exact h.changed q
  by_cases he : q = n :: d
  · subst he
    rcases h.changed (n :: d) with hq | ⟨-, -, hq⟩
    · exact .inr ⟨hon, hq ▸ hnone, lookup_put_self hroom⟩
    · rw [hnone] at hq
      cases hq
  · rw [lookup_put_of_ne he]
    exact h.changed q

end Grown

end FileSystem

namespace Host

open FileSystem (Grown pathNames)
open Rehome.Path (IsPlain)

variable {fs₀ : FileSystem} {names : List Text} {s : Host} {path : Text}

/-- Making a directory leaves all that is there. -/
theorem extends_makeDirectory (s : Host) (path : Text) :
    s.files.Extends (s.answer (.makeDirectory path)).2.files := by
  intro q x hq
  rcases s.answer_makeDirectory path with ⟨e, he⟩ | ⟨d, n, -, hfind, he⟩ <;> rw [he]
  · exact hq
  · obtain ⟨init, via, -, -, -, -, hnone⟩ := FileSystem.leads_of_absent hfind
    have hne : q ≠ n :: d := by
      rintro rfl
      rw [hnone] at hq
      cases hq
    exact (FileSystem.lookup_put_of_ne hne).trans hq

/-- Making a directory on the way leaves everything, or makes what is missing there. -/
theorem grown_makeDirectory (hplain : ∀ n ∈ names, IsPlain n) (habs : Path.isAbsolute path = true)
    (hpath : pathNames path <+: names) (h : s.files = fs₀ ∨ ∃ P, fs₀.Site [] names P ∧
      Grown fs₀ names P s.files) :
    (s.answer (.makeDirectory path)).2.files = fs₀ ∨ ∃ P, fs₀.Site [] names P ∧
      Grown fs₀ names P (s.answer (.makeDirectory path)).2.files := by
  rcases s.answer_makeDirectory path with ⟨e, he⟩ | ⟨d, n, -, hfind, he⟩ <;> rw [he]
  · exact h
  obtain ⟨init, via, hnames, hv, hn, hsize, hnone⟩ := FileSystem.leads_of_absent hfind
  rw [FileSystem.startOf_of_isAbsolute habs] at hv
  rw [hnames] at hpath
  obtain ⟨P, hP, hgrown⟩ : ∃ P, fs₀.Site [] names P ∧ Grown fs₀ names P s.files := by
    rcases h with rfl | h
    · obtain ⟨P, hP, -⟩ := FileSystem.Site.of_none hv hpath hplain hnone
      exact ⟨P, hP, .refl hP⟩
    · exact h
  exact .inr ⟨P, hP, hgrown.put hv hpath hn hsize hnone⟩

end Host

end Rehome
