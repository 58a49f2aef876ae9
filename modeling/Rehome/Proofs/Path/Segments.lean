import Mathlib.Data.List.Basic
import Mathlib.Data.List.Infix
import Rehome.Path.Basic
import Rehome.Proofs.Text.Cut

/-! Segments of paths, and normalisation as a run of segments over a stack. Joining paths is running
the segments of one after those of the other. -/

namespace Rehome.Path

/-- A segment that names an entry of a directory. -/
def IsPlain (s : Text) : Prop := s ≠ [] ∧ s ≠ here ∧ s ≠ up ∧ '/' ∉ s

instance (s : Text) : Decidable (IsPlain s) := inferInstanceAs (Decidable (_ ∧ _ ∧ _ ∧ _))

namespace IsPlain

theorem ne_nil {s : Text} (h : IsPlain s) : s ≠ [] := h.1
theorem ne_here {s : Text} (h : IsPlain s) : s ≠ here := h.2.1
theorem ne_up {s : Text} (h : IsPlain s) : s ≠ up := h.2.2.1
theorem slash_not_mem {s : Text} (h : IsPlain s) : '/' ∉ s := h.2.2.2

end IsPlain

/-! ### Cutting and joining -/

@[simp] theorem segments_nil : segments [] = [[]] := List.splitOn_nil _

@[simp] theorem segments_ne_nil (p : Text) : segments p ≠ [] := List.splitOn_ne_nil _ _

@[simp] theorem ofSegments_segments (p : Text) : ofSegments (segments p) = p :=
  List.intercalate_splitOn _

theorem segments_ofSegments {ss : List Text} (hs : ∀ s ∈ ss, '/' ∉ s) (hne : ss ≠ []) :
    segments (ofSegments ss) = ss := List.splitOn_intercalate _ hs hne

theorem segments_append_slash (p q : Text) : segments (p ++ '/' :: q) = segments p ++ segments q :=
  List.splitOn_append_cons_self _ _

theorem segments_eq_singleton {p : Text} (h : '/' ∉ p) : segments p = [p] :=
  List.splitOn_eq_singleton h

theorem slash_not_mem_of_mem_segments {p s : Text} (h : s ∈ segments p) : '/' ∉ s :=
  Text.not_mem_of_mem_splitOn h

@[simp] theorem ofSegments_nil : ofSegments [] = [] := rfl

@[simp] theorem ofSegments_singleton (s : Text) : ofSegments [s] = s :=
  List.intercalate_singleton

theorem ofSegments_cons {s : Text} {ss : List Text} (h : ss ≠ []) :
    ofSegments (s :: ss) = s ++ '/' :: ofSegments ss := by
  simp [ofSegments, List.intercalate_cons_of_ne_nil h]

theorem ofSegments_append {ss ts : List Text} (hs : ss ≠ []) (ht : ts ≠ []) :
    ofSegments (ss ++ ts) = ofSegments ss ++ '/' :: ofSegments ts := Text.intercalate_append hs ht

theorem suffix_ofSegments {ss : List Text} {s : Text} (h : ss.getLast? = some s) :
    s <:+ ofSegments ss := by
  obtain ⟨init, rfl⟩ := List.getLast?_eq_some_iff.1 h
  by_cases hinit : init = []
  · simp [hinit]
  · rw [ofSegments_append hinit (by simp), ofSegments_singleton]
    exact (List.suffix_cons _ _).trans (List.suffix_append ..)

theorem mem_ofSegments {c : Char} {ss : List Text} (h : c ∈ ofSegments ss) :
    c = '/' ∨ ∃ s ∈ ss, c ∈ s := by
  induction ss with
  | nil => simp at h
  | cons s ss ih =>
    by_cases hs : ss = []
    · subst hs
      exact .inr ⟨s, List.mem_cons_self, by simpa using h⟩
    · rw [ofSegments_cons hs, List.mem_append, List.mem_cons] at h
      rcases h with h | h | h
      · exact .inr ⟨s, List.mem_cons_self, h⟩
      · exact .inl h
      · exact (ih h).imp_right fun ⟨t, ht, hc⟩ => ⟨t, List.mem_cons_of_mem _ ht, hc⟩

theorem mem_ofSegments_of_mem {c : Char} {s : Text} {ss : List Text} (hs : s ∈ ss) (hc : c ∈ s) :
    c ∈ ofSegments ss := by
  induction ss with
  | nil => cases hs
  | cons t ss ih =>
    by_cases hss : ss = []
    · subst hss
      rcases List.mem_singleton.1 hs with rfl
      simpa using hc
    · rw [ofSegments_cons hss, List.mem_append, List.mem_cons]
      rcases List.mem_cons.1 hs with rfl | hs
      · exact .inl hc
      · exact .inr (.inr (ih hs))

theorem mem_of_mem_segments {c : Char} {p s : Text} (hs : s ∈ segments p) (hc : c ∈ s) : c ∈ p :=
  ofSegments_segments p ▸ mem_ofSegments_of_mem hs hc

theorem isInfix_ofSegments {s : Text} {ss : List Text} (h : s ∈ ss) : s <:+: ofSegments ss := by
  induction ss with
  | nil => cases h
  | cons t ss ih =>
    by_cases hss : ss = []
    · subst hss
      rw [List.mem_singleton.1 h, ofSegments_singleton]
    · rw [ofSegments_cons hss]
      rcases List.mem_cons.1 h with rfl | h
      · exact (List.prefix_append _ _).isInfix
      · exact (ih h).trans ((List.suffix_cons _ _).trans (List.suffix_append _ _)).isInfix

/-- What holds no slash lies in one segment. -/
theorem exists_isInfix_of_ofSegments {w : Text} {ss : List Text} (hne : w ≠ []) (hw : '/' ∉ w)
    (h : w <:+: ofSegments ss) : ∃ s ∈ ss, w <:+: s := by
  induction ss with
  | nil => exact absurd (List.infix_nil.1 h) hne
  | cons t ss ih =>
    by_cases hss : ss = []
    · subst hss
      exact ⟨t, List.mem_cons_self, by simpa using h⟩
    · rw [ofSegments_cons hss] at h
      rcases Text.isInfix_cut_cases hw h with h | h
      · exact ⟨t, List.mem_cons_self, h⟩
      · obtain ⟨s, hs, h⟩ := ih h
        exact ⟨s, List.mem_cons_of_mem t hs, h⟩

theorem slashed_eq_self {t : Text} (h : '\\' ∉ t) : t.slashed = t := by
  refine (List.map_congr_left fun c hc => if_neg ?_).trans (List.map_id t)
  rintro rfl
  exact h hc

theorem ofSegments_eq_nil {ss : List Text} (h : ofSegments ss = []) : ss = [] ∨ ss = [[]] := by
  cases ss with
  | nil => exact .inl rfl
  | cons s ss =>
    by_cases hs : ss = []
    · subst hs
      exact .inr (by simpa using h)
    · simp [ofSegments_cons hs] at h

theorem isAbsolute_eq_true_iff {p : Text} : isAbsolute p = true ↔ ∃ q, p = '/' :: q := by
  cases p with
  | nil => simp [isAbsolute]
  | cons c p => simp [isAbsolute, eq_comm]

theorem endsInSlash_eq_true_iff {p : Text} : endsInSlash p = true ↔ ∃ q, p = q ++ ['/'] := by
  rw [endsInSlash, decide_eq_true_eq, List.getLast?_eq_some_iff]

theorem endsInSlash_ofSegments_concat (ss : List Text) {s : Text} (hne : s ≠ []) (hs : '/' ∉ s) :
    endsInSlash (ofSegments (ss ++ [s])) = false := by
  rw [← Bool.not_eq_true, endsInSlash_eq_true_iff]
  rintro ⟨q, hq⟩
  have hlast : (ofSegments (ss ++ [s])).getLast? = s.getLast? := by
    by_cases hss : ss = []
    · simp [hss]
    · rw [ofSegments_append hss (by simp), ofSegments_singleton, List.getLast?_append_of_ne_nil _
        (by simp), List.getLast?_cons_of_ne_nil hne]
  rw [hq, List.getLast?_append_of_ne_nil _ (by simp), List.getLast?_singleton] at hlast
  exact hs (List.mem_of_getLast? hlast.symm)

theorem endsInSlash_ofSegments (ss : List Text) {s : Text} (hs : IsPlain s) :
    endsInSlash (ofSegments (ss ++ [s])) = false :=
  endsInSlash_ofSegments_concat ss hs.ne_nil hs.slash_not_mem

/-! ### Stacks -/

theorem push_nil (r : Bool) (st : List Text) : push r st [] = st := if_pos (.inl rfl)

theorem push_here (r : Bool) (st : List Text) : push r st here = st := if_pos (.inr rfl)

theorem push_plain (r : Bool) (st : List Text) {s : Text} (h : IsPlain s) :
    push r st s = s :: st := by
  unfold push
  rw [if_neg (not_or.2 ⟨h.ne_nil, h.ne_here⟩), if_neg h.ne_up]

theorem push_up_cons (r : Bool) (st : List Text) {s : Text} (h : s ≠ up) :
    push r (s :: st) up = st := by
  show (if up = [] ∨ up = here then s :: st else if up = up then
    if s = up then up :: s :: st else st else up :: s :: st) = st
  rw [if_neg (by decide), if_pos rfl, if_neg h]

/-- A segment without a slash is skipped, is `..`, or is plain. -/
theorem segment_cases {s : Text} (h : '/' ∉ s) : s = [] ∨ s = here ∨ s = up ∨ IsPlain s := by
  by_cases h₁ : s = []
  · exact .inl h₁
  by_cases h₂ : s = here
  · exact .inr (.inl h₂)
  by_cases h₃ : s = up
  · exact .inr (.inr (.inl h₃))
  exact .inr (.inr (.inr ⟨h₁, h₂, h₃, h⟩))

@[simp] theorem resolveStack_nil (r : Bool) (st : List Text) : resolveStack r st [] = st := rfl

@[simp] theorem resolveStack_cons (r : Bool) (st : List Text) (s : Text) (ss : List Text) :
    resolveStack r st (s :: ss) = resolveStack r (push r st s) ss := rfl

theorem resolveStack_append (r : Bool) (st ss ts : List Text) :
    resolveStack r st (ss ++ ts) = resolveStack r (resolveStack r st ss) ts := List.foldl_append

theorem resolveStack_plain (r : Bool) (st : List Text) {ss : List Text} (h : ∀ s ∈ ss, IsPlain s) :
    resolveStack r st ss = ss.reverse ++ st := by
  induction ss generalizing st with
  | nil => rfl
  | cons s ss ih =>
    rw [resolveStack_cons, push_plain r st (h s List.mem_cons_self),
      ih _ fun t ht => h t (List.mem_cons_of_mem _ ht)]
    simp

/-- Empty segments count for nothing. -/
theorem resolveStack_filter (r : Bool) (st ss : List Text) :
    resolveStack r st (ss.filter (· ≠ [])) = resolveStack r st ss := by
  induction ss generalizing st with
  | nil => rfl
  | cons s ss ih =>
    by_cases hs : s = []
    · subst hs
      rw [List.filter_cons_of_neg (by simp), resolveStack_cons, push_nil, ih]
    · rw [List.filter_cons_of_pos (by simpa using hs), resolveStack_cons, resolveStack_cons, ih]

theorem mem_push {r : Bool} {st : List Text} {s t : Text} (h : t ∈ push r st s) :
    t ∈ st ∨ t = s := by
  unfold push at h
  split at h
  · exact .inl h
  split at h
  · next hs =>
    subst hs
    split at h
    · split at h
      · cases h
      · exact .inr (List.mem_singleton.1 h)
    · split at h
      · exact (List.mem_cons.1 h).symm
      · exact .inl (List.mem_cons_of_mem _ h)
  · exact (List.mem_cons.1 h).symm

theorem mem_resolveStack {r : Bool} {st ss : List Text} {t : Text} (h : t ∈ resolveStack r st ss) :
    t ∈ st ∨ t ∈ ss := by
  induction ss generalizing st with
  | nil => exact .inl h
  | cons s ss ih =>
    rcases ih h with h | h
    · exact (mem_push h).imp_right fun (he : t = s) => he ▸ List.mem_cons_self
    · exact .inr (List.mem_cons_of_mem _ h)

/-- The segments of a joined path do what those of its parts do one after the other. -/
theorem resolveStack_join (r : Bool) (st : List Text) {p q : Text} (hq : isAbsolute q = false) :
    resolveStack r st (segments (join p q)) =
      resolveStack r (resolveStack r st (segments p)) (segments q) := by
  rw [join, if_neg (by simp [hq])]
  split
  · next h =>
    rcases h with rfl | h
    · simp [push_nil]
    · obtain ⟨p, rfl⟩ := endsInSlash_eq_true_iff.1 h
      rw [List.append_assoc, List.singleton_append, segments_append_slash, segments_append_slash,
        resolveStack_append, resolveStack_append, segments_nil, resolveStack_cons, push_nil,
        resolveStack_nil]
  · rw [segments_append_slash, resolveStack_append]

/-! ### Normalised paths -/

theorem mem_anchor {c : Char} {p : Text} (h : c ∈ anchor p) : c = '/' := by
  unfold anchor at h
  split at h <;> simp_all

theorem ofStack_eq_here_or (a : Text) (st : List Text) :
    ofStack a st = a ++ ofSegments st.reverse ∨ ofStack a st = here ∧ a = [] := by
  unfold ofStack
  split
  · next h => exact .inr ⟨rfl, (List.append_eq_nil_iff.1 h).1⟩
  · exact .inl rfl

theorem ofStack_ne_nil (a : Text) (st : List Text) : ofStack a st ≠ [] := by
  unfold ofStack
  split
  · decide
  · next h => exact h

theorem normalize_ne_nil (p : Text) : normalize p ≠ [] := ofStack_ne_nil _ _

/-- Normalising brings in no characters but slashes and dots. -/
theorem mem_normalize {c : Char} {p : Text} (h : c ∈ normalize p) : c = '/' ∨ c = '.' ∨ c ∈ p := by
  rcases ofStack_eq_here_or (anchor p) (resolveStack (isAbsolute p) [] (segments p)) with he | he
  · rw [normalize, he, List.mem_append] at h
    rcases h with h | h
    · exact .inl (mem_anchor h)
    rcases mem_ofSegments h with h | ⟨s, hs, hc⟩
    · exact .inl h
    rcases mem_resolveStack (List.mem_reverse.1 hs) with hs | hs
    · cases hs
    · exact .inr (.inr (mem_of_mem_segments hs hc))
  · rw [normalize, he.1] at h
    exact .inr (.inl (List.mem_singleton.1 h))

theorem mem_join {c : Char} {p q : Text} (h : c ∈ join p q) : c = '/' ∨ c ∈ p ∨ c ∈ q := by
  unfold join at h
  split at h
  · exact .inr (.inr h)
  split at h
  · exact .inr (List.mem_append.1 h)
  · rw [List.mem_append, List.mem_cons] at h
    rcases h with h | h | h
    · exact .inr (.inl h)
    · exact .inl h
    · exact .inr (.inr h)

end Rehome.Path
