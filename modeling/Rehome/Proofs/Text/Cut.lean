import Mathlib.Data.List.Basic
import Rehome.Text.Basic

/-! Texts cut at a character, and put together again with the character between the parts. What does not hold the
character lies on one side of a cut. -/

namespace List

variable {α β : Type} [DecidableEq α] [DecidableEq β] {c : α}

theorem cutFirst?_append {s : List α} (h : c ∉ s) (t : List α) : (s ++ c :: t).cutFirst? c = some (s, t) := by
  induction s with
  | nil => simp [cutFirst?]
  | cons d s ih =>
    rw [List.mem_cons, not_or] at h
    simp [cutFirst?, Ne.symm h.1, ih h.2]

theorem cutFirst?_eq_none_iff {t : List α} : t.cutFirst? c = none ↔ c ∉ t := by
  induction t with
  | nil => simp [cutFirst?]
  | cons d t ih =>
    by_cases hd : d = c
    · simp [cutFirst?, hd]
    · simp [cutFirst?, hd, Ne.symm hd, ih]

theorem cutFirst?_eq_some_iff {t u v : List α} : t.cutFirst? c = some (u, v) ↔ c ∉ u ∧ t = u ++ c :: v := by
  refine ⟨fun h => ?_, ?_⟩
  · induction t generalizing u with
    | nil => cases h
    | cons d t ih =>
      by_cases hd : d = c
      · rw [cutFirst?, if_pos hd] at h
        cases h
        exact ⟨List.not_mem_nil, hd ▸ rfl⟩
      · rw [cutFirst?, if_neg hd] at h
        obtain ⟨⟨u', v'⟩, hcut, heq⟩ := Option.map_eq_some_iff.1 h
        cases heq
        obtain ⟨hu, rfl⟩ := ih hcut
        exact ⟨List.not_mem_cons_of_ne_of_not_mem (Ne.symm hd) hu, rfl⟩
  · rintro ⟨hu, rfl⟩
    exact cutFirst?_append hu v

theorem cutLast?_eq_none_iff {t : List α} : t.cutLast? c = none ↔ c ∉ t := by
  induction t with
  | nil => simp [cutLast?]
  | cons d t ih =>
    rw [cutLast?]
    rcases hcut : cutLast? c t with _ | ⟨u, v⟩
    · have ht := ih.1 hcut
      by_cases hd : d = c
      · simp [hd]
      · simp [hd, Ne.symm hd, ht]
    · have ht : c ∈ t := by
        by_contra hmem
        rw [ih.2 hmem] at hcut
        cases hcut
      simp [ht]

theorem cutLast?_append {v : List α} (h : c ∉ v) (u : List α) : (u ++ c :: v).cutLast? c = some (u, v) := by
  induction u with
  | nil =>
    rw [List.nil_append, cutLast?, cutLast?_eq_none_iff.2 h]
    exact if_pos rfl
  | cons d u ih => rw [List.cons_append, cutLast?, ih]

theorem cutLast?_eq_some_iff {t u v : List α} : t.cutLast? c = some (u, v) ↔ c ∉ v ∧ t = u ++ c :: v := by
  refine ⟨fun h => ?_, ?_⟩
  · induction t generalizing u with
    | nil => cases h
    | cons d t ih =>
      rw [cutLast?] at h
      split at h
      · next u' v' hcut =>
        cases h
        obtain ⟨hv, rfl⟩ := ih hcut
        exact ⟨hv, rfl⟩
      · next hcut =>
        split at h
        · next hd =>
          cases h
          exact ⟨cutLast?_eq_none_iff.1 hcut, hd ▸ rfl⟩
        · cases h
  · rintro ⟨hv, rfl⟩
    exact cutLast?_append hv u

theorem cutFirst?_map {f : α → β} (hf : Function.Injective f) (t : List α) :
    (t.map f).cutFirst? (f c) = (t.cutFirst? c).map (Prod.map (map f) (map f)) := by
  induction t with
  | nil => rfl
  | cons d t ih =>
    rw [map_cons, cutFirst?, cutFirst?, ih]
    by_cases hd : d = c
    · simp [hd]
    · simp [hd, hf.ne hd, Function.comp_def]

theorem cutLast?_map {f : α → β} (hf : Function.Injective f) (t : List α) :
    (t.map f).cutLast? (f c) = (t.cutLast? c).map (Prod.map (map f) (map f)) := by
  induction t with
  | nil => rfl
  | cons d t ih =>
    rw [map_cons, cutLast?, cutLast?, ih]
    rcases cutLast? c t with _ | ⟨u, v⟩
    · by_cases hd : d = c
      · simp [hd]
      · simp [hd, hf.ne hd]
    · rfl

end List

namespace Rehome.Text

variable {c : Char}

theorem not_mem_of_mem_splitOn {t u : Text} (h : u ∈ t.splitOn c) : c ∉ u := by
  induction t generalizing u with
  | nil => simp_all
  | cons d t ih =>
    rw [List.splitOn_cons_eq_if_modifyHead] at h
    split at h
    · rcases List.mem_cons.1 h with rfl | h
      · simp
      · exact ih h
    · next hd =>
      obtain ⟨v, vs, ht⟩ := List.exists_cons_of_ne_nil (List.splitOn_ne_nil c t)
      rw [ht] at h ih
      rcases List.mem_cons.1 h with rfl | h
      · simpa [Ne.symm (by simpa using hd)] using ih List.mem_cons_self
      · exact ih (List.mem_cons_of_mem _ h)

theorem intercalate_append {ts us : List Text} (ht : ts ≠ []) (hu : us ≠ []) :
    [c].intercalate (ts ++ us) = [c].intercalate ts ++ c :: [c].intercalate us := by
  induction ts with
  | nil => exact absurd rfl ht
  | cons t ts ih =>
    cases ts with
    | nil => simp [List.intercalate_cons_of_ne_nil hu]
    | cons t' ts =>
      have hne : t' :: ts ≠ [] := List.cons_ne_nil _ _
      rw [List.cons_append, List.intercalate_cons_of_ne_nil (List.append_ne_nil_of_left_ne_nil hne _), ih hne,
        List.intercalate_cons_of_ne_nil hne]
      simp

/-- A cut lies behind what does not hold its character. -/
theorem exists_of_append_cut {a b z r : Text} (ha : c ∉ a) (h : a ++ b = z ++ c :: r) :
    ∃ z', z = a ++ z' ∧ b = z' ++ c :: r := by
  rcases List.append_eq_append_iff.1 h with ⟨y, rfl, hy⟩ | ⟨y, rfl, hy⟩
  · exact ⟨y, rfl, hy⟩
  · cases y with
    | nil => exact ⟨[], by simp, hy.symm⟩
    | cons d y =>
      obtain ⟨rfl, -⟩ := List.cons.inj hy
      exact absurd (by simp) ha

theorem isPrefix_of_cut {w x y : Text} (hw : c ∉ w) (h : w <+: x ++ c :: y) : w <+: x := by
  have hcut : x ++ [c] <+: x ++ c :: y := ⟨y, by simp⟩
  rcases List.prefix_or_prefix_of_prefix h hcut with h | h
  · rcases List.prefix_concat_iff.1 h with rfl | h
    · simp at hw
    · exact h
  · exact absurd (h.subset (by simp)) hw

theorem isSuffix_of_cut {w x y : Text} (hw : c ∉ w) (h : w <:+ x ++ c :: y) : w <:+ y := by
  rcases List.suffix_or_suffix_of_suffix h (List.suffix_append x (c :: y)) with h | h
  · rcases List.suffix_cons_iff.1 h with rfl | h
    · simp at hw
    · exact h
  · exact absurd (h.subset List.mem_cons_self) hw

theorem isInfix_cut_cases {w x y : Text} (hw : c ∉ w) (h : w <:+: x ++ c :: y) : w <:+: x ∨ w <:+: y := by
  obtain ⟨a, b, h⟩ := h
  rcases List.append_eq_append_iff.1 h with ⟨z, rfl, -⟩ | ⟨z, hz, hb⟩
  · exact .inl ⟨a, z, rfl⟩
  · cases z with
    | nil => exact .inl ⟨a, [], by simpa using hz⟩
    | cons d z =>
      obtain ⟨rfl, rfl⟩ := List.cons.inj hb
      have hend : w <:+ x ++ c :: z := ⟨a, hz⟩
      exact .inr ((isSuffix_of_cut hw hend).isInfix.trans (List.prefix_append z b).isInfix)

end Rehome.Text
