import Mathlib.Data.List.Basic
import Mathlib.Data.List.Sort
import Rehome.Text.Basic

/-! Texts in order. Sorting depends on which texts there are, not on how they come. -/

namespace Rehome.Text

theorem precedes_total (s t : Text) : precedes s t = true ∨ precedes t s = true := by
  induction s generalizing t with
  | nil => exact .inl rfl
  | cons c s ih =>
    cases t with
    | nil => exact .inr rfl
    | cons d t =>
      simp only [precedes, Bool.or_eq_true, decide_eq_true_eq, Bool.and_eq_true]
      rcases Nat.lt_trichotomy c.toNat d.toNat with h | h | h
      · exact .inl (.inl h)
      · have hcd : c = d := Char.toNat_inj.1 h
        subst hcd
        exact (ih t).imp (fun h => .inr ⟨rfl, h⟩) fun h => .inr ⟨rfl, h⟩
      · exact .inr (.inl h)

theorem precedes_trans {r s t : Text} (h : precedes r s = true) (h' : precedes s t = true) :
    precedes r t = true := by
  induction r generalizing s t with
  | nil => rfl
  | cons b r ih =>
    cases s with
    | nil => cases h
    | cons c s =>
      cases t with
      | nil => cases h'
      | cons d t =>
        simp only [precedes, Bool.or_eq_true, decide_eq_true_eq, Bool.and_eq_true] at h h' ⊢
        rcases h with h | ⟨rfl, h⟩ <;> rcases h' with h' | ⟨rfl, h'⟩
        · exact .inl (h.trans h')
        · exact .inl h
        · exact .inl h'
        · exact .inr ⟨rfl, ih h h'⟩

theorem precedes_antisymm {s t : Text} (h : precedes s t = true) (h' : precedes t s = true) :
    s = t := by
  induction s generalizing t with
  | nil =>
    cases t with
    | nil => rfl
    | cons d t => cases h'
  | cons c s ih =>
    cases t with
    | nil => cases h
    | cons d t =>
      simp only [precedes, Bool.or_eq_true, decide_eq_true_eq, Bool.and_eq_true] at h h'
      rcases h with h | ⟨rfl, h⟩ <;> rcases h' with h' | ⟨hcd, h'⟩
      · omega
      · subst hcd
        omega
      · omega
      · rw [ih h h']

/-- Earlier in the order of code points: at the first difference the text has ended, or its character is the
smaller one. -/
def Before : Text → Text → Prop := List.Lex fun c d => c.toNat < d.toNat

theorem before_iff {s t : Text} : Before s t ↔ precedes s t = true ∧ s ≠ t := by
  induction s generalizing t with
  | nil =>
    cases t with
    | nil => exact ⟨nofun, fun h => absurd rfl h.2⟩
    | cons d t => exact ⟨fun _ => ⟨rfl, (List.cons_ne_nil d t).symm⟩, fun _ => .nil⟩
  | cons c s ih =>
    cases t with
    | nil => exact ⟨nofun, fun h => absurd h.1 Bool.false_ne_true⟩
    | cons d t =>
      simp only [precedes, Bool.or_eq_true, decide_eq_true_eq, Bool.and_eq_true]
      constructor
      · rintro (_ | h | h)
        · exact ⟨.inl h, fun he => h.ne (congrArg Char.toNat (List.cons.inj he).1)⟩
        · obtain ⟨hp, hne⟩ := ih.1 h
          exact ⟨.inr ⟨rfl, hp⟩, fun he => hne (List.cons.inj he).2⟩
      · rintro ⟨h | ⟨rfl, hp⟩, hne⟩
        · exact .rel h
        · exact .cons (ih.2 ⟨hp, fun he => hne (congrArg (c :: ·) he)⟩)

theorem place_perm (t : Text) (us : List Text) : (sort.place t us).Perm (t :: us) := by
  induction us with
  | nil => exact .refl _
  | cons u us ih =>
    unfold sort.place
    split
    · exact .refl _
    · exact (ih.cons u).trans (.swap t u us)

theorem sort_perm (ts : List Text) : (sort ts).Perm ts := by
  induction ts with
  | nil => exact .refl _
  | cons t ts ih => exact (place_perm t _).trans (ih.cons t)

@[simp] theorem mem_sort {t : Text} {ts : List Text} : t ∈ sort ts ↔ t ∈ ts := (sort_perm ts).mem_iff

theorem pairwise_place {t : Text} {us : List Text} (h : us.Pairwise fun u v => precedes u v = true) :
    (sort.place t us).Pairwise fun u v => precedes u v = true := by
  induction us with
  | nil => exact List.pairwise_singleton _ _
  | cons u us ih =>
    obtain ⟨hu, hus⟩ := List.pairwise_cons.1 h
    unfold sort.place
    split
    · next htu =>
      refine List.pairwise_cons.2 ⟨fun v hv => ?_, h⟩
      rcases List.mem_cons.1 hv with rfl | hv
      · exact htu
      · exact precedes_trans htu (hu v hv)
    · next htu =>
      refine List.pairwise_cons.2 ⟨fun v hv => ?_, ih hus⟩
      rcases List.mem_cons.1 ((place_perm t us).mem_iff.1 hv) with rfl | hv
      · exact (precedes_total u v).resolve_right htu
      · exact hu v hv

theorem pairwise_sort (ts : List Text) : (sort ts).Pairwise fun u v => precedes u v = true := by
  induction ts with
  | nil => exact .nil
  | cons t ts ih => exact pairwise_place ih

/-- Different texts are sorted strictly. -/
theorem pairwise_before_sort {ts : List Text} (h : ts.Nodup) : (sort ts).Pairwise Before :=
  ((pairwise_sort ts).and ((sort_perm ts).nodup_iff.2 h)).imp before_iff.2

/-- In whatever order texts come, they are sorted into one. -/
theorem sort_eq_of_perm {ss ts : List Text} (h : ss.Perm ts) : sort ss = sort ts :=
  ((sort_perm ss).trans (h.trans (sort_perm ts).symm)).eq_of_pairwise
    (fun _ _ _ _ h h' => precedes_antisymm h h') (pairwise_sort ss) (pairwise_sort ts)

end Rehome.Text
