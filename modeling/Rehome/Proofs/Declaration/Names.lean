import Mathlib.Data.List.Infix
import Rehome.Declaration
import Rehome.Manifest

/-! Which file a module name is the name of. Off the name of a file its suffix is taken, and after that
a last segment `index`, so that a name can stand for two files besides the root file of a package. -/

namespace Rehome

namespace Text

theorem stripSuffix_append (p s : Text) : (p ++ s).stripSuffix s = p := by
  have h : (p ++ s).endsWith s = true := List.isSuffixOf_iff_suffix.2 (List.suffix_append _ _)
  rw [stripSuffix, if_pos h, List.length_append, Nat.add_sub_cancel, List.take_left]

theorem stripSuffix_of_not_suffix {p s : Text} (h : ¬ s <:+ p) : p.stripSuffix s = p :=
  if_neg fun hs => h (List.isSuffixOf_iff_suffix.1 hs)

theorem stripSuffix_eq_iff {p s m : Text} :
    p.stripSuffix s = m ↔ p = m ++ s ∨ p = m ∧ ¬ s <:+ m := by
  by_cases h : s <:+ p
  · obtain ⟨q, rfl⟩ := h
    rw [stripSuffix_append, List.append_left_inj]
    refine ⟨.inl, fun hm => hm.elim id ?_⟩
    rintro ⟨rfl, hs⟩
    exact absurd (List.suffix_append q s) hs
  · rw [stripSuffix_of_not_suffix h]
    constructor
    · rintro rfl
      exact .inr ⟨rfl, h⟩
    · rintro (rfl | ⟨hm, -⟩)
      · exact absurd (List.suffix_append m s) h
      · exact hm

end Text

namespace Declaration

variable {home rel rootFile m : Text}

theorem stem_append_suffix (p : Text) : stem (p ++ suffix) = p := Text.stripSuffix_append p suffix

theorem exists_of_isFile (h : isFile rel = true) : ∃ p, rel = p ++ suffix := by
  obtain ⟨p, hp⟩ := List.isSuffixOf_iff_suffix.1 h
  exact ⟨p, hp.symm⟩

/-- The last name of a file that is named after its directory. -/
def indexFile : Text := "index".toList ++ suffix

/-- The file at `key` is found under the name `m` as it stands, or as the index of a directory. -/
def Spells (key m : Text) : Prop :=
  key = m ++ '/' :: indexFile ∨ key = m ++ suffix ∧ ¬ "/index".toList <:+ m

instance (key m : Text) : Decidable (Spells key m) := inferInstanceAs (Decidable (_ ∨ _))

theorem stripIndex_stem_eq_iff {key : Text} (h : isFile key = true) :
    stripIndex (stem key) = m ↔ Spells key m := by
  obtain ⟨p, rfl⟩ := exists_of_isFile h
  have hindex : m ++ '/' :: indexFile = (m ++ "/index".toList) ++ suffix := by simp [indexFile]
  rw [stem_append_suffix, stripIndex, Text.stripSuffix_eq_iff, Spells, hindex, List.append_left_inj,
    List.append_left_inj]

theorem stem_append {p : Text} (h : isFile rel = true) : p ++ stem rel = stem (p ++ rel) := by
  obtain ⟨q, rfl⟩ := exists_of_isFile h
  rw [← List.append_assoc, stem_append_suffix, stem_append_suffix]

theorem isFile_append (p : Text) (h : isFile rel = true) : isFile (p ++ rel) = true :=
  List.isSuffixOf_iff_suffix.2 ((List.isSuffixOf_iff_suffix.1 h).trans (List.suffix_append p rel))

/-- The root file of a package goes by the home, every other file by a name that its key spells. -/
theorem modulePathOf_eq_iff (h : isFile rel.slashed = true) :
    modulePathOf home rel rootFile = m ↔
      if rel.slashed = rootFile.slashed then home = m
      else Spells (Manifest.entry home rel.slashed).key m := by
  unfold modulePathOf
  split
  · exact Iff.rfl
  · have hkey : (Manifest.entry home rel.slashed).key = home ++ ['/'] ++ rel.slashed :=
      List.append_cons ..
    rw [currentPathOf, List.append_cons, stem_append h, hkey, stripIndex_stem_eq_iff (isFile_append _ h)]

end Declaration

end Rehome
