import Rehome.Proofs.Reference.Relocation

/-! Which references resolve to the name of the file that they denote. A reference resolves to the place
that it spells, while a file is declared under the home if it is the root file, and under the name of its
directory if it is called `index`. Both agree as long as the reference names neither by itself. -/

namespace Rehome

namespace Path

/-- A relative path below a directory is normalised by running its segments over those of the
directory. -/
theorem normalize_join_ofSegments {ds : List Text} (hds : ∀ s ∈ ds, IsPlain s) {q : Text}
    (hq : isAbsolute q = false) :
    normalize (join (ofSegments ds) q) = ofStack [] (resolveStack false ds.reverse (segments q)) := by
  by_cases hne : ds = []
  · subst hne
    have hjoin : join (ofSegments []) q = q := by simp [join, hq]
    rw [hjoin, normalize, anchor_of_relative hq, hq, List.reverse_nil]
  · have hjoin : isAbsolute (join (ofSegments ds) q) = false :=
      (isAbsolute_join _ hq).trans (isAbsolute_ofSegments hds)
    rw [normalize, anchor_of_relative hjoin, hjoin, resolveStack_join _ _ hq,
      segments_ofSegments (fun s hs => (hds s hs).slash_not_mem) hne, resolveStack_plain _ _ hds,
      List.append_nil]

/-- What ends in a slash and a segment ends in no other segment after a slash. -/
theorem slash_cons_suffix_iff {q s t : Text} (hs : '/' ∉ s) (ht : '/' ∉ t) :
    '/' :: t <:+ q ++ '/' :: s ↔ t = s := by
  constructor
  · rintro ⟨r, hr⟩
    have hsegs := congrArg segments hr
    rw [segments_append_slash, segments_append_slash, segments_eq_singleton hs,
      segments_eq_singleton ht] at hsegs
    exact List.singleton_inj.1 (List.append_inj' hsegs rfl).2
  · rintro rfl
    exact List.suffix_append q _

end Path

namespace Reference

open Rehome.Path Declaration

variable {home rootFile name rel ref g : Text} {ds p : List Text}

/-- Seen from the directory `ds` of its package, the reference leads to the place `p` of it. -/
def Denotes (ds : List Text) (ref : Text) (p : List Text) : Prop :=
  normalize (join (ofSegments ds) ref.slashed) = ofStack [] p.reverse

instance (ds : List Text) (ref : Text) (p : List Text) : Decidable (Denotes ds ref p) :=
  inferInstanceAs (Decidable (_ = _))

/-- The file `g` of a package stands at the place `p`, or is the index of the directory there. -/
def StandsAt (p : List Text) (g : Text) : Prop :=
  p ≠ [] ∧ g.slashed = ofSegments p ++ suffix ∨ g.slashed = ofSegments (p ++ [indexFile])

instance (p : List Text) (g : Text) : Decidable (StandsAt p g) := inferInstanceAs (Decidable (_ ∨ _))

/-- The place `p` spells that the file `g` there is called `index`. -/
def SpellsIndex (p : List Text) (g : Text) : Prop :=
  g.slashed = ofSegments p ++ suffix ∧ p.getLast? = some "index".toList

/-! ### Names of files -/

section Names

variable (hhome : ∀ s ∈ segments home, IsPlain s) (hp : ∀ s ∈ p, IsPlain s)
include hhome hp

theorem descend_eq_home_iff (slash : Bool) :
    descend home p ++ (if slash then ['/'] else []) = home ↔ slash = false ∧ p = [] := by
  rw [descend_home hhome hp]
  by_cases hnil : p = [] <;> cases slash <;> simp [hnil]

theorem index_suffix_descend_iff (hne : p ≠ []) :
    "/index".toList <:+ descend home p ↔ p.getLast? = some "index".toList := by
  obtain ⟨init, s, rfl⟩ := (List.eq_nil_or_concat p).resolve_left hne
  rw [List.concat_eq_append] at hp ⊢
  have hs := hp s (by simp)
  have hlast : ∃ q, descend home (init ++ [s]) = q ++ '/' :: s := by
    rw [descend_home hhome hp, if_neg (by simp)]
    by_cases hinit : init = []
    · exact ⟨home, by simp [hinit]⟩
    · exact ⟨home ++ '/' :: ofSegments init, by rw [ofSegments_append hinit (by simp)]; simp⟩
  obtain ⟨q, hq⟩ := hlast
  rw [hq, List.getLast?_concat, Option.some.injEq, eq_comm]
  exact slash_cons_suffix_iff hs.slash_not_mem (by decide)

/-- The file of a place goes by its path below the home, unless that ends in `index`. -/
theorem modulePathOf_of_file (hne : p ≠ []) (hg : g.slashed = ofSegments p ++ suffix) :
    modulePathOf home g rootFile =
      if g.slashed = rootFile.slashed then home else stripIndex (descend home p) := by
  rw [modulePathOf, currentPathOf, hg, stem_append_suffix, descend_home hhome hp, if_neg hne]

/-- The index of a directory goes by the path of the directory below the home. -/
theorem modulePathOf_of_index (hg : g.slashed = ofSegments (p ++ [indexFile])) :
    modulePathOf home g rootFile =
      if g.slashed = rootFile.slashed then home else descend home p := by
  have hcur : currentPathOf home g = descend home p ++ "/index".toList := by
    rw [currentPathOf, hg, descend_home hhome hp]
    by_cases hnil : p = []
    · subst hnil
      rw [List.nil_append, ofSegments_singleton, indexFile, stem_append_suffix, if_pos rfl]
      rfl
    · rw [ofSegments_append hnil (by simp), ofSegments_singleton, indexFile, if_neg hnil,
        ← List.cons_append, ← List.append_assoc, stem_append_suffix]
      simp
  rw [modulePathOf, hcur, stripIndex, Text.stripSuffix_append]

/-- With or without a slash behind it, the path of the place below the home is the name of the file there
only in these cases. -/
theorem descend_eq_modulePathOf_iff (hg : StandsAt p g) (slash : Bool) :
    descend home p ++ (if slash then ['/'] else []) = modulePathOf home g rootFile ↔
      slash = false ∧ (p = [] ∨ g.slashed ≠ rootFile.slashed ∧ ¬ SpellsIndex p g) := by
  by_cases hroot : g.slashed = rootFile.slashed
  · have hname : modulePathOf home g rootFile = home := if_pos hroot
    rw [hname, descend_eq_home_iff hhome hp]
    simp [hroot]
  rcases hg with ⟨hne, hfile⟩ | hindex
  · rw [modulePathOf_of_file hhome hp hne hfile, if_neg hroot, eq_comm, stripIndex,
      Text.stripSuffix_eq_iff]
    have hspells : SpellsIndex p g ↔ "/index".toList <:+ descend home p := by
      rw [index_suffix_descend_iff hhome hp hne]
      exact ⟨And.right, fun h => ⟨hfile, h⟩⟩
    cases slash <;> simp [hne, hroot, hspells]
  · rw [modulePathOf_of_index hhome hp hindex, if_neg hroot]
    have hspells : p = [] ∨ ¬ SpellsIndex p g := by
      refine or_iff_not_imp_left.2 fun hne hspells => ?_
      have hfile := hspells.1
      rw [hindex, ofSegments_append hne (by simp), List.append_cancel_left_eq] at hfile
      exact absurd hfile (by decide)
    cases slash <;> simp [hroot, hspells]

end Names

/-- A relative reference of the file `name.d.ts` in the directory `ds` of its package that stays in the
package denotes one place of it. It resolves to the name of the file there exactly if it does not end in a
slash and, unless the place is the package itself, the file is not the root file of the package and is not
called `index` by the reference. -/
theorem resolve_eq_modulePathOf_iff (hhome : ∀ s ∈ segments home, IsPlain s)
    (hds : ∀ s ∈ ds, IsPlain s) (hname : IsPlain name)
    (hrel : rel.slashed = ofSegments (ds ++ [name ++ suffix]))
    (href : isRelative ref = true) (hstay : StaysWithin ds.length (segments ref.slashed)) :
    ∃ p, (∀ s ∈ p, IsPlain s) ∧ Denotes ds ref p ∧ ∀ g, StandsAt p g →
      (resolve (currentPathOf home rel) ref = modulePathOf home g rootFile ↔
        endsInSlash ref.slashed = false ∧
          (p = [] ∨ g.slashed ≠ rootFile.slashed ∧ ¬ SpellsIndex p g)) := by
  have hds' : ∀ s ∈ ds.reverse, IsPlain s := fun s hs => hds s (List.mem_reverse.1 hs)
  obtain ⟨t, ht, hrun⟩ := resolveStack_above hds'
    (fun s => slash_not_mem_of_mem_segments (p := ref.slashed)) (by simpa using hstay)
  have hp : ∀ s ∈ t.reverse, IsPlain s := fun s hs => ht s (List.mem_reverse.1 hs)
  rw [← List.reverse_reverse t] at hrun
  refine ⟨t.reverse, hp, ?_, fun g hg => ?_⟩
  · have hrun' := hrun false []
    rw [List.append_nil, List.append_nil] at hrun'
    rw [Denotes, normalize_join_ofSegments hds (isAbsolute_slashed_of_isRelative href), hrun']
  rw [resolve_currentPathOf hds hp href hrun hhome hname hrel]
  exact descend_eq_modulePathOf_iff hhome hp hg _

theorem resolve_eq_modulePathOf_iff_scoped :
    ∃ p, (∀ s ∈ p, IsPlain s) ∧ Denotes ["d".toList] "..\\e".toList p ∧ ∀ g, StandsAt p g →
      (resolve (currentPathOf "@a/b".toList "d\\x.d.ts".toList) "..\\e".toList =
          modulePathOf "@a/b".toList g "main.d.ts".toList ↔
        endsInSlash (Text.slashed "..\\e".toList) = false ∧
          (p = [] ∨ g.slashed ≠ Text.slashed "main.d.ts".toList ∧ ¬ SpellsIndex p g)) :=
  resolve_eq_modulePathOf_iff (by decide) (show ∀ s ∈ ["d".toList], IsPlain s by decide)
    (show IsPlain "x".toList by decide) (by decide) (by decide) (by decide)

/-- In a package of three files, the names of its directory `sub` with a slash behind it, of the index of
that directory and of the root file `main.d.ts` are not those that the files go by. -/
theorem resolve_ne_modulePathOf :
    let files := ["a.d.ts".toList, "sub/index.d.ts".toList, "main.d.ts".toList]
    ∀ e ∈ [("./sub/".toList, ["sub".toList], "sub/index.d.ts".toList),
        ("./sub/index".toList, ["sub".toList, "index".toList], "sub/index.d.ts".toList),
        ("./main".toList, ["main".toList], "main.d.ts".toList)],
      StaysWithin 0 (segments (Text.slashed e.1)) ∧ Denotes [] e.1 e.2.1 ∧
        (∀ g ∈ files, StandsAt e.2.1 g ↔ g = e.2.2) ∧
        resolve (currentPathOf "foo".toList "a.d.ts".toList) e.1 ≠
          modulePathOf "foo".toList e.2.2 "main.d.ts".toList := by
  decide +kernel

end Reference

end Rehome
