import Rehome.Proofs.Path.Normal
import Rehome.Proofs.Reference.Relocation

/-! References with more text behind them. The text stays if normalising can only touch its first segment, and
that one goes on from a name at the end of the reference. -/

namespace Rehome

namespace Path

variable {x y p s t : Text} {xs ys ss : List Text}

theorem IsPlain.append (hs : IsPlain s) (ht : '/' ∉ t) : IsPlain (s ++ t) := by
  refine ⟨by simp [hs.ne_nil], fun h => ?_, fun h => ?_, by simp [hs.slash_not_mem, ht]⟩
  · rcases List.append_eq_singleton_iff.1 h with ⟨rfl, -⟩ | ⟨rfl, -⟩
    · exact hs.ne_nil rfl
    · exact hs.ne_here rfl
  · obtain ⟨c, s, rfl⟩ := List.exists_cons_of_ne_nil hs.ne_nil
    obtain ⟨rfl, hrest⟩ := List.cons.inj h
    rcases List.append_eq_singleton_iff.1 hrest with ⟨rfl, -⟩ | ⟨rfl, -⟩
    · exact hs.ne_here rfl
    · exact hs.ne_up rfl

theorem ofSegments_glue (xs ys : List Text) (s t : Text) :
    ofSegments (xs ++ [s]) ++ ofSegments (t :: ys) = ofSegments (xs ++ (s ++ t) :: ys) := by
  induction xs with
  | nil =>
    by_cases hys : ys = []
    · simp [hys]
    · simp [ofSegments_cons hys]
  | cons r xs ih =>
    have hleft : xs ++ [s] ≠ [] := by simp
    have hright : xs ++ (s ++ t) :: ys ≠ [] := by simp
    rw [List.cons_append, List.cons_append, ofSegments_cons hleft, ofSegments_cons hright, ← ih, List.append_assoc,
      List.cons_append]

/-- Of two texts put together, the last segment of the one and the first of the other become one. -/
theorem segments_glue (hx : segments x = xs ++ [s]) (hy : segments y = t :: ys) :
    segments (x ++ y) = xs ++ (s ++ t) :: ys := by
  have hslash {z r : Text} (hr : r ∈ segments z) : '/' ∉ r := slash_not_mem_of_mem_segments hr
  have hall : ∀ r ∈ xs ++ (s ++ t) :: ys, '/' ∉ r := by
    rw [List.forall_mem_append, List.forall_mem_cons]
    refine ⟨fun r hr => hslash (z := x) (by simp [hx, hr]), ?_, fun r hr => hslash (z := y) (by simp [hy, hr])⟩
    rw [List.mem_append, not_or]
    exact ⟨hslash (z := x) (by simp [hx]), hslash (z := y) (by simp [hy])⟩
  rw [← ofSegments_segments x, ← ofSegments_segments y, hx, hy, ofSegments_glue, segments_ofSegments hall (by simp)]

theorem exists_segments_snoc (x : Text) : ∃ xs s, segments x = xs ++ [s] := by
  obtain ⟨xs, s, h⟩ := (List.eq_nil_or_concat (segments x)).resolve_left (segments_ne_nil x)
  exact ⟨xs, s, by rw [h, List.concat_eq_append]⟩

/-- Only the first segment may be skipped or be `..`, and no backslash is to be read as a slash. -/
structure Tidy (x : Text) : Prop where
  backslash : '\\' ∉ x
  plain : ∀ s ∈ (segments x).tail, IsPlain s

instance (x : Text) : Decidable (Tidy x) := decidable_of_iff ('\\' ∉ x ∧ ∀ s ∈ (segments x).tail, IsPlain s)
  ⟨fun h => ⟨h.1, h.2⟩, fun h => ⟨h.backslash, h.plain⟩⟩

theorem Tidy.of_not_mem (hslash : '/' ∉ x) (hback : '\\' ∉ x) : Tidy x :=
  ⟨hback, by simp [segments_eq_singleton hslash]⟩

theorem Tidy.append (hx : Tidy x) (hy : Tidy y) : Tidy (x ++ y) := by
  refine ⟨by simp [hx.backslash, hy.backslash], ?_⟩
  obtain ⟨xs, s, hxs⟩ := exists_segments_snoc x
  obtain ⟨t, ys, hys⟩ := List.exists_cons_of_ne_nil (segments_ne_nil y)
  have hplain := hx.plain
  have hplain' : ∀ r ∈ ys, IsPlain r := by simpa [hys] using hy.plain
  have ht : '/' ∉ t := slash_not_mem_of_mem_segments (p := y) (by simp [hys])
  rw [segments_glue hxs hys]
  rw [hxs] at hplain
  cases xs with
  | nil => simpa using hplain'
  | cons r xs =>
    have hs : IsPlain s := hplain s (by simp)
    intro r' hr'
    rw [List.cons_append, List.tail_cons, List.mem_append, List.mem_cons] at hr'
    rcases hr' with hr' | rfl | hr'
    · exact hplain r' (by simp [hr'])
    · exact hs.append ht
    · exact hplain' r' hr'

theorem ofStack_of_mem (a : Text) {st : List Text} (hs : s ∈ st) (hne : s ≠ []) :
    ofStack a st = a ++ ofSegments st.reverse := by
  obtain ⟨c, s, rfl⟩ := List.exists_cons_of_ne_nil hne
  have hc : c ∈ ofSegments st.reverse := mem_ofSegments_of_mem (List.mem_reverse.2 hs) List.mem_cons_self
  unfold ofStack
  split
  · next h =>
    rw [(List.append_eq_nil_iff.1 h).2] at hc
    cases hc
  · rfl

/-- A path with more text behind it is normalised alone, if it ends in a name. -/
theorem normalize_join_append {q : Text} (hp : Ends p) (hq : isAbsolute q = false) (hqx : isAbsolute (q ++ x) = false)
    (hqs : segments q = ss ++ [s]) (hs : IsPlain s) (hx : Tidy x) :
    normalize (join p (q ++ x)) = normalize (join p q) ++ x := by
  obtain ⟨t, ys, hys⟩ := List.exists_cons_of_ne_nil (segments_ne_nil x)
  have ht : '/' ∉ t := slash_not_mem_of_mem_segments (p := x) (by simp [hys])
  have hplain : ∀ r ∈ ys, IsPlain r := by simpa [hys] using hx.plain
  have hanchor : anchor (join p (q ++ x)) = anchor (join p q) := by
    rw [hp.join_eq hqx, hp.join_eq hq, hp.anchor_append, hp.anchor_append]
  have hstack : ∀ st, resolveStack (isAbsolute p) st (ss ++ [s]) = s :: resolveStack (isAbsolute p) st ss := by
    intro st
    rw [resolveStack_append, resolveStack_cons, push_plain _ _ hs, resolveStack_nil]
  have hstack' : ∀ st, resolveStack (isAbsolute p) st (ss ++ (s ++ t) :: ys) =
      ys.reverse ++ (s ++ t) :: resolveStack (isAbsolute p) st ss := by
    intro st
    rw [resolveStack_append, resolveStack_cons, push_plain _ _ (hs.append ht), resolveStack_plain _ _ hplain]
  rw [normalize, normalize, hanchor, isAbsolute_join p hqx, isAbsolute_join p hq, resolveStack_join _ _ hqx,
    resolveStack_join _ _ hq, segments_glue hqs hys, hqs, hstack, hstack', ofStack_of_mem _ (s := s ++ t) (by simp)
      (hs.append ht).ne_nil, ofStack_of_mem _ List.mem_cons_self hs.ne_nil]
  have hglue := ofSegments_glue
    (resolveStack (isAbsolute p) (resolveStack (isAbsolute p) [] (segments p)) ss).reverse ys s t
  rw [← hys, ofSegments_segments] at hglue
  simpa using hglue.symm

/-! ### Words of a normalised path -/

variable {w q : Text}

theorem isInfix_of_isInfix_normalize (hne : w ≠ []) (hslash : '/' ∉ w) (hdot : '.' ∉ w) (h : w <:+: normalize p) :
    w <:+: p := by
  have hrooted {z : Text} (h : w <:+: '/' :: z) : w <:+: z :=
    (Text.isInfix_cut_cases (x := []) hslash h).resolve_left fun h => hne (List.infix_nil.1 h)
  rcases ofStack_eq_here_or (anchor p) (resolveStack (isAbsolute p) [] (segments p)) with he | ⟨he, -⟩
  · rw [normalize, he] at h
    have hstack : w <:+: ofSegments (resolveStack (isAbsolute p) [] (segments p)).reverse := by
      rcases isAnchor_anchor p with ha | ha | ha
      · rwa [ha] at h
      · rw [ha] at h
        exact hrooted h
      · rw [ha] at h
        exact hrooted (hrooted h)
    obtain ⟨s, hs, h⟩ := exists_isInfix_of_ofSegments hne hslash hstack
    have hsegment := (mem_resolveStack (List.mem_reverse.1 hs)).resolve_left (List.not_mem_nil)
    exact h.trans (ofSegments_segments p ▸ isInfix_ofSegments hsegment)
  · rw [normalize, he] at h
    obtain ⟨c, r, rfl⟩ := List.exists_cons_of_ne_nil hne
    have hc : c ∈ here := h.subset List.mem_cons_self
    exact absurd (List.mem_singleton.1 hc ▸ List.mem_cons_self) hdot

theorem isInfix_join_cases (hslash : '/' ∉ w) (h : w <:+: join p q) : w <:+: p ∨ w <:+: q := by
  unfold join at h
  split at h
  · exact .inr h
  split at h
  · next hp =>
    rcases hp with rfl | hp
    · exact .inr h
    · obtain ⟨p, rfl⟩ := endsInSlash_eq_true_iff.1 hp
      rw [List.append_assoc, List.singleton_append] at h
      exact (Text.isInfix_cut_cases hslash h).imp_left fun h => h.trans (List.prefix_append p _).isInfix
  · exact Text.isInfix_cut_cases hslash h

end Path

namespace Reference

open Rehome.Path

variable {current m x : Text}

theorem isInfix_of_isInfix_slashed {w : Text} (hslash : '/' ∉ w) (h : w <:+: m.slashed) : w <:+: m := by
  obtain ⟨a, b, h⟩ := h
  obtain ⟨mw, mb, rfl, hw, -⟩ := List.map_eq_append_iff.1 h.symm
  obtain ⟨ma, mw, rfl, -, rfl⟩ := List.map_eq_append_iff.1 hw
  have hback : '\\' ∉ mw := fun hc => hslash (List.mem_map.2 ⟨'\\', hc, rfl⟩)
  have hself : Text.slashed mw = mw := slashed_eq_self hback
  exact ⟨ma, mb, congrArg (ma ++ · ++ mb) hself⟩

/-- A word in what a reference resolves to comes from the current path or from the reference. -/
theorem isInfix_of_isInfix_resolve {w : Text} (hne : w ≠ []) (hslash : '/' ∉ w) (hdot : '.' ∉ w)
    (h : w <:+: resolve current m) : w <:+: current ∨ w <:+: m := by
  have htarget (h : w <:+: normalize (join (join current up) m.slashed)) : w <:+: current ∨ w <:+: m := by
    rcases isInfix_join_cases hslash (isInfix_of_isInfix_normalize hne hslash hdot h) with h | h
    · refine (isInfix_join_cases hslash h).imp_right fun h => ?_
      obtain ⟨c, r, rfl⟩ := List.exists_cons_of_ne_nil hne
      have hc : c ∈ up := h.subset List.mem_cons_self
      exact absurd (show '.' ∈ c :: r by simp_all [up]) hdot
    · exact .inr (isInfix_of_isInfix_slashed hslash h)
  unfold resolve at h
  split at h
  · dsimp only at h
    split at h
    · refine htarget ((Text.isInfix_cut_cases hslash h).resolve_right fun h => hne (List.infix_nil.1 h))
    · exact htarget h
  · exact .inr h

/-- The last segment of a reference is a name. -/
def EndsInName (m : Text) : Prop := ∃ ss s, segments m.slashed = ss ++ [s] ∧ IsPlain s

theorem endsInSlash_append {q : Text} {ss : List Text} {s : Text} (hq : segments q = ss ++ [s]) (hs : IsPlain s)
    (hx : Tidy x) : endsInSlash (q ++ x) = false := by
  obtain ⟨t, ys, hys⟩ := List.exists_cons_of_ne_nil (segments_ne_nil x)
  have ht : '/' ∉ t := slash_not_mem_of_mem_segments (p := x) (by simp [hys])
  have hplain : ∀ r ∈ ys, IsPlain r := by simpa [hys] using hx.plain
  rw [← ofSegments_segments (q ++ x), segments_glue hq hys]
  rcases List.eq_nil_or_concat ys with rfl | ⟨ys, r, rfl⟩
  · exact endsInSlash_ofSegments ss (hs.append ht)
  · have hlast := endsInSlash_ofSegments (ss ++ (s ++ t) :: ys) (hplain r (by simp))
    simpa using hlast

theorem resolve_append (hm : isRelative m = true) (hend : EndsInName m) (hx : Tidy x) :
    resolve current (m ++ x) = resolve current m ++ x := by
  obtain ⟨ss, s, hss, hs⟩ := hend
  have hne : m ≠ [] := by
    rintro rfl
    cases hm
  have hmx : isRelative (m ++ x) = true := (isRelative_append hne x).trans hm
  have hslashed : (m ++ x).slashed = m.slashed ++ x := by
    rw [Text.slashed, List.map_append]
    exact congrArg (m.slashed ++ ·) (slashed_eq_self hx.backslash)
  have hrel := isAbsolute_slashed_of_isRelative hm
  have hrel' := isAbsolute_slashed_of_isRelative hmx
  have hends : Ends (join current up) := Ends.join current ⟨by decide, rfl⟩ rfl
  have hslash : endsInSlash m.slashed = false := by
    rw [← ofSegments_segments m.slashed, hss]
    exact endsInSlash_ofSegments ss hs
  rw [hslashed] at hrel'
  rw [resolve, if_pos hmx, resolve, if_pos hm]
  simp only [hslashed, hslash, endsInSlash_append hss hs hx, Bool.false_and, Bool.false_eq_true, if_false]
  exact normalize_join_append hends hrel hrel' hss hs hx

end Reference

end Rehome
