import Rehome.Proofs.Declaration.Names
import Rehome.Proofs.Path.Descent
import Rehome.Reference

/-! Relocation keeps what references denote: a relative reference that stays in its package leads, from
the current path of a file, below the home along the same segments as it leads below the source
directory from the file itself. -/

namespace Rehome

namespace Reference

open Rehome.Path

theorem isAbsolute_slashed_of_isRelative {ref : Text} (h : isRelative ref = true) :
    isAbsolute ref.slashed = false := by
  cases ref with
  | nil => rfl
  | cons c ref =>
    have : c = '.' := by simpa [isRelative] using h
    subst this
    rfl

theorem isRelative_append {m : Text} (hm : m ≠ []) (x : Text) : isRelative (m ++ x) = isRelative m := by
  rw [isRelative, List.head?_append_of_ne_nil m hm, isRelative]

/-- Below the directory of a file a path is normalised by running its segments over the directory. -/
theorem normalize_join_up {s q : Text} {st : List Text} (h : Anchored [] (s :: st))
    (hq : isAbsolute q = false) :
    normalize (join (join (ofStack [] (s :: st)) up) q) = ofStack [] (resolveStack false st (segments q)) := by
  have habs : isAbsolute (ofStack [] (s :: st)) = false := by
    rw [h.ofStack_eq, List.nil_append]
    exact isAbsolute_ofSegments h.plain_reverse
  have hup : isAbsolute (join (ofStack [] (s :: st)) up) = false :=
    (isAbsolute_join _ rfl).trans habs
  have hjoin : isAbsolute (join (join (ofStack [] (s :: st)) up) q) = false :=
    (isAbsolute_join _ hq).trans hup
  rw [Path.normalize, anchor_of_relative hjoin, hjoin, resolveStack_join _ _ hq,
    resolveStack_join _ _ rfl, h.resolveStack_segments,
    show segments up = [up] from segments_eq_singleton (by decide), resolveStack_cons,
    push_up_cons _ _ (h.plain s List.mem_cons_self).ne_up, resolveStack_nil]

/-- Resolving runs the segments of the reference over the directory of the current path. -/
theorem resolve_ofStack {s ref : Text} {st : List Text} (h : Anchored [] (s :: st))
    (href : isRelative ref = true) {t : List Text}
    (ht : resolveStack false st (segments ref.slashed) = t) (hend : endsInSlash (ofStack [] t) = false) :
    resolve (ofStack [] (s :: st)) ref =
      ofStack [] t ++ if endsInSlash ref.slashed then ['/'] else [] := by
  have htarget := normalize_join_up h (isAbsolute_slashed_of_isRelative href)
  rw [ht] at htarget
  rw [resolve, if_pos href]
  simp only [htarget, hend, Bool.not_false, Bool.and_true]
  split <;> simp

/-- The current path of the file `name.d.ts` in the directory `ds` of its package, as a stack. -/
theorem currentPathOf_eq_ofStack {home name rel : Text} {ds : List Text}
    (hhome : ∀ s ∈ segments home, IsPlain s) (hds : ∀ s ∈ ds, IsPlain s) (hname : IsPlain name)
    (hrel : rel.slashed = ofSegments (ds ++ [name ++ Declaration.suffix])) :
    Anchored [] (name :: (ds.reverse ++ (segments home).reverse)) ∧
      Declaration.currentPathOf home rel =
        ofStack [] (name :: (ds.reverse ++ (segments home).reverse)) := by
  have hds' : ∀ s ∈ ds.reverse, IsPlain s := fun s hs => hds s (List.mem_reverse.1 hs)
  have hanch := ((anchored_of_plain hhome).append hds').push hname
  refine ⟨hanch, ?_⟩
  have hlast : ofSegments (ds ++ [name ++ Declaration.suffix]) =
      ofSegments (ds ++ [name]) ++ Declaration.suffix := by
    by_cases h : ds = []
    · simp [h]
    · rw [ofSegments_append h (by simp), ofSegments_append h (by simp)]
      simp
  have hsegs : (name :: (ds.reverse ++ (segments home).reverse)).reverse =
      segments home ++ (ds ++ [name]) := by simp
  rw [Declaration.currentPathOf, hrel, hlast, Declaration.stem_append_suffix, hanch.ofStack_eq,
    hsegs, ofSegments_append (segments_ne_nil home) (by simp), ofSegments_segments,
    List.nil_append]

/-- What lies below a home is the home itself or starts with it and a slash. -/
theorem descend_home {home : Text} (hhome : ∀ s ∈ segments home, IsPlain s) {ss : List Text}
    (hs : ∀ s ∈ ss, IsPlain s) :
    descend home ss = if ss = [] then home else home ++ '/' :: ofSegments ss := by
  have hanch := anchored_of_plain hhome
  have h := hanch.descend_ofStack hs
  rw [ofStack_segments_reverse hhome] at h
  rw [h, (hanch.append fun s h => hs s (List.mem_reverse.1 h)).ofStack_eq, List.nil_append,
    List.reverse_append, List.reverse_reverse, List.reverse_reverse]
  split
  · next hnil => rw [hnil, List.append_nil, ofSegments_segments]
  · next hne => rw [ofSegments_append (segments_ne_nil home) hne, ofSegments_segments]

section Denotes

variable {home source name rel ref : Text} {ds t : List Text} (hds : ∀ s ∈ ds, IsPlain s)
  (ht : ∀ s ∈ t, IsPlain s) (href : isRelative ref = true)
  (hrun : ∀ r base, resolveStack r (ds.reverse ++ base) (segments ref.slashed) = t.reverse ++ base)
include hds ht href hrun

theorem normalize_join_descend (hsource : isAbsolute source = true)
    (hnorm : normalize source = source) :
    normalize (join (descend source ds) ref.slashed) = descend source t := by
  have hds' : ∀ s ∈ ds.reverse, IsPlain s := fun s hs => hds s (List.mem_reverse.1 hs)
  have hsrc := anchored_of_absolute hsource
  have he : source = ofStack (anchor source) (resolveStack true [] (segments source)) := by
    rw [← hsource]
    exact hnorm.symm
  rw [he, hsrc.descend_ofStack hds,
    (hsrc.append hds').normalize_join (isAbsolute_slashed_of_isRelative href), hrun,
    hsrc.descend_ofStack ht]

theorem resolve_currentPathOf (hhome : ∀ s ∈ segments home, IsPlain s) (hname : IsPlain name)
    (hrel : rel.slashed = ofSegments (ds ++ [name ++ Declaration.suffix])) :
    resolve (Declaration.currentPathOf home rel) ref =
      descend home t ++ if endsInSlash ref.slashed then ['/'] else [] := by
  have ht' : ∀ s ∈ t.reverse, IsPlain s := fun s hs => ht s (List.mem_reverse.1 hs)
  obtain ⟨hanch, hcur⟩ := currentPathOf_eq_ofStack hhome hds hname hrel
  have hplain := anchored_of_plain hhome
  have hdesc := hplain.descend_ofStack ht
  rw [ofStack_segments_reverse hhome] at hdesc
  rw [hcur, hdesc]
  exact resolve_ofStack hanch href (hrun false _) ((hplain.append ht').endsInSlash_eq_false (by simp))

end Denotes

/-- With or without a slash at its end, what lies below a home is below it as a module name too. -/
theorem eq_home_or_below {home : Text} (hhome : ∀ s ∈ segments home, IsPlain s) {t : List Text}
    (ht : ∀ s ∈ t, IsPlain s) (slash : Bool) :
    descend home t ++ (if slash then ['/'] else []) = home ∨
      home ++ ['/'] <+: descend home t ++ if slash then ['/'] else [] := by
  rw [descend_home hhome ht]
  split
  · split
    · exact .inr (List.prefix_refl _)
    · exact .inl (List.append_nil _)
  · exact .inr (by simp)

/-- A relative reference of the file `name.d.ts` in the directory `ds` of its package that stays in
the package denotes one place `t` of it. Below the source directory it is found on disk, and below the
home it is the module that the reference resolves to. -/
theorem resolve_follows_source {home source name rel ref : Text} {ds : List Text}
    (hhome : ∀ s ∈ segments home, IsPlain s) (hdot : home.head? ≠ some '.')
    (hsource : isAbsolute source = true) (hnorm : normalize source = source)
    (hds : ∀ s ∈ ds, IsPlain s) (hname : IsPlain name)
    (hrel : rel.slashed = ofSegments (ds ++ [name ++ Declaration.suffix]))
    (href : isRelative ref = true) (hclimb : StaysWithin ds.length (segments ref.slashed)) :
    ∃ t, (∀ s ∈ t, IsPlain s) ∧
      normalize (join (descend source ds) ref.slashed) = descend source t ∧
      resolve (Declaration.currentPathOf home rel) ref =
        descend home t ++ (if endsInSlash ref.slashed then ['/'] else []) ∧
      isRelative (resolve (Declaration.currentPathOf home rel) ref) = false ∧
      (resolve (Declaration.currentPathOf home rel) ref = home ∨
        home ++ ['/'] <+: resolve (Declaration.currentPathOf home rel) ref) := by
  have hds' : ∀ s ∈ ds.reverse, IsPlain s := fun s hs => hds s (List.mem_reverse.1 hs)
  obtain ⟨t, ht, hrun⟩ := resolveStack_above hds'
    (fun s => slash_not_mem_of_mem_segments (p := ref.slashed)) (by simpa using hclimb)
  have ht' : ∀ s ∈ t.reverse, IsPlain s := fun s hs => ht s (List.mem_reverse.1 hs)
  rw [← List.reverse_reverse t] at hrun
  have hmodule := resolve_currentPathOf hds ht' href hrun hhome hname hrel
  have hbelow := eq_home_or_below hhome ht' (endsInSlash ref.slashed)
  rw [← hmodule] at hbelow
  refine ⟨t.reverse, ht', normalize_join_descend hds ht' href hrun hsource hnorm, hmodule, ?_, hbelow⟩
  have hhead : (resolve (Declaration.currentPathOf home rel) ref).head? = home.head? := by
    have hne : home ≠ [] := by
      rintro rfl
      exact (hhome [] (by simp)).ne_nil rfl
    obtain ⟨c, r, rfl⟩ := List.exists_cons_of_ne_nil hne
    rcases hbelow with h | ⟨q, h⟩
    · rw [h]
    · rw [← h]
      rfl
  rw [isRelative, hhead, decide_eq_false_iff_not]
  exact hdot

theorem resolve_follows_source_backslashes :
    ∃ t, (∀ s ∈ t, IsPlain s) ∧
      normalize (join (descend "/src".toList ["d".toList]) (Text.slashed "..\\e\\".toList)) =
        descend "/src".toList t ∧
      resolve (Declaration.currentPathOf "@a/b".toList "d/x.d.ts".toList) "..\\e\\".toList =
        descend "@a/b".toList t ++ ['/'] ∧
      isRelative (resolve (Declaration.currentPathOf "@a/b".toList "d/x.d.ts".toList)
        "..\\e\\".toList) = false ∧
      (resolve (Declaration.currentPathOf "@a/b".toList "d/x.d.ts".toList) "..\\e\\".toList =
          "@a/b".toList ∨
        "@a/b".toList ++ ['/'] <+: resolve (Declaration.currentPathOf "@a/b".toList
          "d/x.d.ts".toList) "..\\e\\".toList) :=
  @resolve_follows_source "@a/b".toList "/src".toList "x".toList "d/x.d.ts".toList
    "..\\e\\".toList ["d".toList] (by decide) (by decide) (by decide) (by decide) (by decide)
    (by decide) (by decide) (by decide) (by decide)

end Reference

end Rehome
