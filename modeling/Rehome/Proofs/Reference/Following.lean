import Rehome.Proofs.Path.Normal
import Rehome.Proofs.Reference.Relocation

/-! References followed one after the other. What a reference resolves to is the place it leads to, with or
without a slash behind it, so a second reference goes on from there as it would go on from the first. -/

namespace Rehome.Reference

open Rehome.Path

variable {current r s : Text}

/-- Where a relative reference leads before its path is normalised. -/
def target (current r : Text) : Text := join (join current up) r.slashed

theorem join_up_ne_nil (current : Text) : join current up ≠ [] := by
  by_cases h : current = []
  · subst h
    decide
  · exact join_ne_nil h rfl

theorem target_ne_nil (hr : isRelative r = true) : target current r ≠ [] :=
  join_ne_nil (join_up_ne_nil current) (isAbsolute_slashed_of_isRelative hr)

theorem ne_nil_of_isRelative (hr : isRelative r = true) : r ≠ [] := by
  rintro rfl
  cases hr

theorem slashed_ne_nil (hr : isRelative r = true) : r.slashed ≠ [] :=
  fun h => ne_nil_of_isRelative hr (List.map_eq_nil_iff.1 h)

theorem resolve_eq (hr : isRelative r = true) :
    resolve current r =
      normalize (target current r) ++
        if endsInSlash r.slashed && !endsInSlash (normalize (target current r)) then ['/'] else [] := by
  rw [resolve, if_pos hr]
  show (if _ then normalize (target current r) ++ ['/'] else normalize (target current r)) = _
  split <;> simp [*, target]

theorem samePlace_resolve (hr : isRelative r = true) : SamePlace (resolve current r) (target current r) := by
  have hnorm : SamePlace (normalize (target current r)) (target current r) := .normalize (target_ne_nil hr)
  rw [resolve_eq hr]
  split
  · next hslash =>
    have hends : Ends (normalize (target current r)) := ⟨normalize_ne_nil _, by simp_all⟩
    exact (SamePlace.append_slash hends).trans hnorm
  · rwa [List.append_nil]

theorem samePlace_target (hr : isRelative r = true) (hs : isRelative s = true) :
    SamePlace (target (resolve current r) s) (target current (r ++ "/../".toList ++ s)) := by
  have hr' := isAbsolute_slashed_of_isRelative hr
  have hs' := isAbsolute_slashed_of_isRelative hs
  have hcut : (r ++ "/../".toList ++ s).slashed = r.slashed ++ '/' :: (up ++ '/' :: s.slashed) := by
    simp [Text.slashed, up]
  have hstep :
      SamePlace (join (target current r) (up ++ '/' :: s.slashed)) (join (join (target current r) up) s.slashed) :=
    .join_cut (target_ne_nil hr) (by decide) rfl hs'
  rw [target, target, hcut]
  exact (((samePlace_resolve hr).join rfl).join hs').trans
    (hstep.symm.trans (SamePlace.join_cut (join_up_ne_nil current) (slashed_ne_nil hr) hr' rfl).symm)

theorem endsInSlash_slashed_append (hs : isRelative s = true) (x : Text) :
    endsInSlash (x ++ s).slashed = endsInSlash s.slashed := by
  rw [endsInSlash, endsInSlash, Text.slashed, List.map_append]
  exact congrArg (decide <| · = _) (List.getLast?_append_of_ne_nil _ (slashed_ne_nil hs))

/-- To follow a reference and then a second one is to follow both at once, with a step up in between out of
the file that the first one leads to. -/
theorem resolve_resolve (hr : isRelative r = true) (hs : isRelative s = true) :
    resolve (resolve current r) s = resolve current (r ++ "/../".toList ++ s) := by
  have hrs : isRelative (r ++ "/../".toList ++ s) = true := by
    rw [List.append_assoc, isRelative_append (ne_nil_of_isRelative hr), hr]
  rw [resolve_eq hs, resolve_eq hrs, (samePlace_target hr hs).normalize_eq, endsInSlash_slashed_append hs]

/-- From below a root of two slashes, by way of the root itself. -/
theorem resolve_resolve_double_root :
    isRelative ".\\..\\../".toList = true ∧ isRelative "../x/.".toList = true ∧
      resolve (resolve "//a".toList ".\\..\\../".toList) "../x/.".toList =
        resolve "//a".toList (".\\..\\../".toList ++ "/../".toList ++ "../x/.".toList) :=
  ⟨by decide, by decide, resolve_resolve (by decide) (by decide)⟩

example : resolve "//a".toList ".\\..\\..//../../x/.".toList = "//x".toList := by decide

end Rehome.Reference
