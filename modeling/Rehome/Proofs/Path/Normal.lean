import Mathlib.Order.Bounds.Basic
import Rehome.Proofs.Path.Descent

/-! Stacks that a run leaves, and what they say of paths. Of a relative path a block of `..` may stay in
front of its names, as long as the run once led up that far; below a root none stays. A path and its
normal form go on alike, so normalising in between changes nothing. -/

namespace Rehome.Path

variable {p q : Text} {ss names : List Text} {depth k : Nat}

/-! ### Climbing -/

/-- How often the segments lead up beyond what `depth` and the plain ones among them allow. -/
def excess (depth : Nat) (ss : List Text) : Nat := ss.count up - (depth + ss.countP fun s => IsPlain s)

/-- The most that the segments lead up beyond `depth` at any point. -/
def IsPeak (depth : Nat) (ss : List Text) (k : Nat) : Prop :=
  IsGreatest {e | ∃ pre, pre <+: ss ∧ excess depth pre = e} k

@[simp] theorem excess_nil (depth : Nat) : excess depth [] = 0 := Nat.zero_sub _

theorem excess_cons_skipped {s : Text} (hs : s ≠ up) (hp : ¬ IsPlain s) (ss : List Text) :
    excess depth (s :: ss) = excess depth ss := by
  simp [excess, hs, hp]

theorem excess_cons_plain {s : Text} (hs : IsPlain s) (ss : List Text) :
    excess depth (s :: ss) = excess (depth + 1) ss := by
  simp only [excess, List.count_cons_of_ne hs.ne_up, List.countP_cons, hs, decide_true, if_true]
  omega

theorem not_isPlain_up : ¬ IsPlain up := fun h => h.ne_up rfl

theorem excess_cons_up (depth : Nat) (ss : List Text) :
    excess (depth + 1) (up :: ss) = excess depth ss := by
  simp only [excess, List.count_cons_self, List.countP_cons, not_isPlain_up, decide_false,
    Bool.false_eq_true, if_false]
  omega

theorem excess_zero_cons_up_le (ss : List Text) : excess 0 (up :: ss) ≤ excess 0 ss + 1 := by
  simp only [excess, List.count_cons_self, List.countP_cons, not_isPlain_up, decide_false,
    Bool.false_eq_true, if_false]
  omega

theorem excess_zero_cons_up_of_pos (h : 0 < excess 0 ss) : excess 0 (up :: ss) = excess 0 ss + 1 := by
  simp only [excess, List.count_cons_self, List.countP_cons, not_isPlain_up, decide_false,
    Bool.false_eq_true, if_false] at h ⊢
  omega

theorem isPeak_nil (depth : Nat) : IsPeak depth [] 0 := by
  refine ⟨⟨[], List.nil_prefix, excess_nil depth⟩, ?_⟩
  rintro e ⟨pre, hpre, rfl⟩
  rw [List.prefix_nil.1 hpre, excess_nil]

namespace IsPeak

/-- A first segment that changes the depth and nothing else leaves the peak where it is. -/
theorem cons {s : Text} {depth' : Nat} (h : IsPeak depth' ss k)
    (hs : ∀ pre, excess depth (s :: pre) = excess depth' pre) : IsPeak depth (s :: ss) k := by
  obtain ⟨⟨pre, hpre, he⟩, hbound⟩ := h
  refine ⟨⟨s :: pre, List.cons_prefix_cons.2 ⟨rfl, hpre⟩, (hs pre).trans he⟩, ?_⟩
  rintro e ⟨all, hall, rfl⟩
  rcases List.prefix_cons_iff.1 hall with rfl | ⟨pre', rfl, hpre⟩
  · exact (excess_nil depth).trans_le (Nat.zero_le k)
  · rw [hs]
    exact hbound ⟨pre', hpre, rfl⟩

theorem cons_up (h : IsPeak 0 ss k) : IsPeak 0 (up :: ss) (k + 1) := by
  obtain ⟨⟨pre, hpre, he⟩, hbound⟩ := h
  refine ⟨?_, ?_⟩
  · rcases Nat.eq_zero_or_pos k with rfl | hpos
    · exact ⟨[up], List.cons_prefix_cons.2 ⟨rfl, List.nil_prefix⟩, by decide⟩
    · refine ⟨up :: pre, List.cons_prefix_cons.2 ⟨rfl, hpre⟩, ?_⟩
      rw [excess_zero_cons_up_of_pos (he ▸ hpos), he]
  · rintro e ⟨all, hall, rfl⟩
    rcases List.prefix_cons_iff.1 hall with rfl | ⟨pre', rfl, hpre⟩
    · exact Nat.zero_le _
    · exact (excess_zero_cons_up_le pre').trans (Nat.succ_le_succ (hbound ⟨pre', hpre, rfl⟩))

end IsPeak

/-- Nothing but a name is taken off a relative stack. -/
theorem push_up_of_head {st : List Text} (h : ∀ top ∈ st.head?, top = up) : push false st up = up :: st := by
  cases st with
  | nil => rfl
  | cons top rest =>
    obtain rfl := h top rfl
    rfl

theorem push_up_replicate (k : Nat) :
    push false (List.replicate k up) up = List.replicate (k + 1) up :=
  push_up_of_head fun _ h => List.eq_of_mem_replicate (List.mem_of_mem_head? h)

/-- Names lie over the `..` that a run of relative segments has left, of which there are as many as the
segments led up beyond the names that were there. -/
theorem resolveStack_climbs (hss : ∀ s ∈ ss, '/' ∉ s) (hnames : ∀ s ∈ names, IsPlain s) (k : Nat) :
    ∃ names' j, resolveStack false (names ++ List.replicate k up) ss = names' ++ List.replicate (k + j) up ∧
      (∀ s ∈ names', IsPlain s) ∧ IsPeak names.length ss j := by
  induction ss generalizing names k with
  | nil => exact ⟨names, 0, rfl, hnames, isPeak_nil _⟩
  | cons s ss ih =>
    obtain ⟨hs, hrest⟩ := List.forall_mem_cons.1 hss
    rw [resolveStack_cons]
    rcases segment_cases hs with rfl | rfl | rfl | hp
    · obtain ⟨names', j, he, hplain, hpeak⟩ := ih hrest hnames k
      exact ⟨names', j, he, hplain, hpeak.cons (excess_cons_skipped (by decide) (by decide))⟩
    · obtain ⟨names', j, he, hplain, hpeak⟩ := ih hrest hnames k
      exact ⟨names', j, he, hplain, hpeak.cons (excess_cons_skipped (by decide) (by decide))⟩
    · cases names with
      | nil =>
        obtain ⟨names', j, he, hplain, hpeak⟩ := ih hrest hnames (k + 1)
        rw [List.nil_append, push_up_replicate]
        exact ⟨names', j + 1, by rwa [Nat.add_comm j, ← Nat.add_assoc], hplain, hpeak.cons_up⟩
      | cons top rest =>
        obtain ⟨htop, hover⟩ := List.forall_mem_cons.1 hnames
        obtain ⟨names', j, he, hplain, hpeak⟩ := ih hrest hover k
        rw [List.cons_append, push_up_cons _ _ htop.ne_up]
        exact ⟨names', j, he, hplain, hpeak.cons (excess_cons_up rest.length)⟩
    · obtain ⟨names', j, he, hplain, hpeak⟩ := ih hrest (List.forall_mem_cons.2 ⟨hp, hnames⟩) k
      rw [push_plain _ _ hp]
      exact ⟨names', j, he, hplain, hpeak.cons (excess_cons_plain hp)⟩

/-- What stays on a stack is a name or `..`, so it is not empty and holds no slash. -/
theorem ne_nil_of_mem_climbed {s : Text} (hnames : ∀ s ∈ names, IsPlain s)
    (h : s ∈ names ++ List.replicate k up) : s ≠ [] ∧ '/' ∉ s := by
  rcases List.mem_append.1 h with h | h
  · exact ⟨(hnames s h).ne_nil, (hnames s h).slash_not_mem⟩
  · rw [List.eq_of_mem_replicate h]
    exact ⟨by decide, by decide⟩

/-- The path of a relative stack whose segments are not empty. -/
theorem ofStack_nil_eq {st : List Text} (hst : ∀ s ∈ st, s ≠ []) :
    ofStack [] st = if st = [] then here else ofSegments st.reverse := by
  unfold ofStack
  rw [List.nil_append]
  split
  · next hnil =>
    rcases ofSegments_eq_nil hnil with h | h
    · rw [if_pos (List.reverse_eq_nil_iff.1 h)]
    · exact absurd rfl (hst [] (List.mem_reverse.1 (h ▸ List.mem_cons_self)))
  · next hne =>
    rw [if_neg]
    rintro rfl
    exact hne rfl

theorem endsInSlash_ofStack_nil {st : List Text} (hst : ∀ s ∈ st, s ≠ [] ∧ '/' ∉ s) :
    endsInSlash (ofStack [] st) = false := by
  rw [ofStack_nil_eq fun s hs => (hst s hs).1]
  cases st with
  | nil => rfl
  | cons s st =>
    obtain ⟨hne, hslash⟩ := hst s List.mem_cons_self
    rw [if_neg (List.cons_ne_nil s st), List.reverse_cons]
    exact endsInSlash_ofSegments_concat _ hne hslash

/-! ### Going on from a normal form -/

theorem resolveStack_replicate_up (k j : Nat) :
    resolveStack false (List.replicate k up) (List.replicate j up) = List.replicate (k + j) up := by
  induction j generalizing k with
  | zero => rfl
  | succ j ih =>
    rw [List.replicate_succ, resolveStack_cons, push_up_replicate, ih, Nat.add_right_comm, Nat.add_assoc]

/-- A relative stack is left again by a run along its own path. -/
theorem resolveStack_segments_climbed (hnames : ∀ s ∈ names, IsPlain s) (k : Nat) :
    resolveStack false [] (segments (ofStack [] (names ++ List.replicate k up))) =
      names ++ List.replicate k up := by
  have hstack : ∀ s ∈ names ++ List.replicate k up, s ≠ [] ∧ '/' ∉ s := fun s => ne_nil_of_mem_climbed hnames
  rw [ofStack_nil_eq fun s hs => (hstack s hs).1]
  split
  · next hnil =>
    rw [hnil]
    rfl
  · next hne =>
    have hslash : ∀ s ∈ (names ++ List.replicate k up).reverse, '/' ∉ s := fun s hs =>
      (hstack s (List.mem_reverse.1 hs)).2
    have hrun := resolveStack_replicate_up 0 k
    rw [List.replicate_zero, Nat.zero_add] at hrun
    rw [segments_ofSegments hslash (mt List.reverse_eq_nil_iff.1 hne), List.reverse_append, List.reverse_replicate,
      resolveStack_append, hrun, resolveStack_plain _ _ fun s hs => hnames s (List.mem_reverse.1 hs),
      List.reverse_reverse]

theorem isAbsolute_ofStack_nil {st : List Text} (hst : ∀ s ∈ st, s ≠ [] ∧ '/' ∉ s) :
    isAbsolute (ofStack [] st) = false := by
  rw [ofStack_nil_eq fun s hs => (hst s hs).1]
  split
  · rfl
  · next hne =>
    obtain ⟨s, rest, hrev⟩ := List.exists_cons_of_ne_nil (mt List.reverse_eq_nil_iff.1 hne)
    obtain ⟨hs, hslash⟩ := hst s (List.mem_reverse.1 (hrev ▸ List.mem_cons_self))
    rw [hrev, ← Bool.not_eq_true, isAbsolute_eq_true_iff]
    rintro ⟨q, hq⟩
    obtain ⟨c, s, rfl⟩ := List.exists_cons_of_ne_nil hs
    have hc : c = '/' := by
      by_cases hrest : rest = []
      · rw [hrest, ofSegments_singleton] at hq
        exact (List.cons.inj hq).1
      · rw [ofSegments_cons hrest] at hq
        exact (List.cons.inj hq).1
    exact hslash (hc ▸ List.mem_cons_self)

/-- Two paths that start at the same root, or both at none, and whose segments leave the same stack. -/
structure SamePlace (p q : Text) : Prop where
  ne_nil : p ≠ []
  ne_nil' : q ≠ []
  anchor : anchor p = anchor q
  isAbsolute : isAbsolute p = isAbsolute q
  stack : resolveStack (Path.isAbsolute q) [] (segments p) = resolveStack (Path.isAbsolute q) [] (segments q)

/-- What follows a path does not move the root that it starts at, unless slashes come together. -/
theorem anchor_append (hp : p ≠ []) (h : endsInSlash p = true → isAbsolute q = false) :
    anchor (p ++ q) = anchor p := by
  rcases q with _ | ⟨a, q⟩
  · rw [List.append_nil]
  have hslash : endsInSlash p = true → a ≠ '/' := by
    rintro hend rfl
    cases h hend
  match p with
  | [] => exact absurd rfl hp
  | [c] =>
    have hc : c = '/' → a ≠ '/' := fun hc => hslash (hc ▸ rfl)
    by_cases hc' : c = '/' <;> simp_all [anchor]
  | [c, d] =>
    have hd : d = '/' → a ≠ '/' := fun hd => hslash (hd ▸ rfl)
    by_cases hc' : c = '/' <;> by_cases hd' : d = '/' <;> simp_all [anchor]
  | c :: d :: e :: p =>
    by_cases hc : c = '/' <;> by_cases hd : d = '/' <;> by_cases he : e = '/' <;> simp [anchor, hc, hd, he]

theorem Ends.anchor_append (h : Ends p) (q : Text) : anchor (p ++ q) = anchor p :=
  Path.anchor_append h.ne_nil fun hend => by simp [h.slash] at hend

/-- What is joined to a path does not move the root that it starts at. -/
theorem anchor_join (hp : p ≠ []) (hq : isAbsolute q = false) : anchor (join p q) = anchor p := by
  rw [join, if_neg (by simp [hq])]
  split
  · exact anchor_append hp fun _ => hq
  · next h =>
    have hends : Ends p := ⟨hp, by simpa [hp] using h⟩
    exact hends.anchor_append ('/' :: q)

theorem join_ne_nil (hp : p ≠ []) (hq : isAbsolute q = false) : join p q ≠ [] := by
  rw [join, if_neg (by simp [hq])]
  split
  · exact List.append_ne_nil_of_left_ne_nil hp q
  · exact List.append_ne_nil_of_left_ne_nil hp _

namespace SamePlace

variable {p' q' r : Text}

theorem normalize_eq (h : SamePlace p q) : normalize p = normalize q := by
  rw [normalize, normalize, h.anchor, h.isAbsolute, h.stack]

theorem symm (h : SamePlace p q) : SamePlace q p :=
  ⟨h.ne_nil', h.ne_nil, h.anchor.symm, h.isAbsolute.symm, by rw [h.isAbsolute, h.stack]⟩

theorem trans (h : SamePlace p q) (h' : SamePlace q r) : SamePlace p r :=
  ⟨h.ne_nil, h'.ne_nil', h.anchor.trans h'.anchor, h.isAbsolute.trans h'.isAbsolute,
    (h'.isAbsolute ▸ h.stack).trans h'.stack⟩

/-- From the same place, the same path leads to the same place. -/
theorem join (h : SamePlace p q) (hr : Path.isAbsolute r = false) : SamePlace (Path.join p r) (Path.join q r) where
  ne_nil := join_ne_nil h.ne_nil hr
  ne_nil' := join_ne_nil h.ne_nil' hr
  anchor := by rw [anchor_join h.ne_nil hr, anchor_join h.ne_nil' hr, h.anchor]
  isAbsolute := by rw [isAbsolute_join p hr, isAbsolute_join q hr, h.isAbsolute]
  stack := by rw [isAbsolute_join q hr, resolveStack_join _ _ hr, resolveStack_join _ _ hr, h.stack]

/-- A slash at the end counts for nothing. -/
theorem append_slash (hp : Ends p) : SamePlace (p ++ ['/']) p where
  ne_nil := List.append_ne_nil_of_left_ne_nil hp.ne_nil _
  ne_nil' := hp.ne_nil
  anchor := hp.anchor_append ['/']
  isAbsolute := by
    obtain ⟨c, p, rfl⟩ := List.exists_cons_of_ne_nil hp.ne_nil
    rfl
  stack := by
    rw [segments_append_slash, resolveStack_append, segments_nil, resolveStack_cons, push_nil, resolveStack_nil]

/-- A relative path that is cut at a slash leads where its two parts lead one after the other. -/
theorem join_cut (hp : p ≠ []) (hq : q ≠ []) (hrel : Path.isAbsolute q = false) (hr : Path.isAbsolute r = false) :
    SamePlace (Path.join p (q ++ '/' :: r)) (Path.join (Path.join p q) r) := by
  have hcut : Path.isAbsolute (q ++ '/' :: r) = false := by
    obtain ⟨c, q, rfl⟩ := List.exists_cons_of_ne_nil hq
    exact hrel
  have habs : Path.isAbsolute (Path.join (Path.join p q) r) = Path.isAbsolute p := by
    rw [isAbsolute_join _ hr, isAbsolute_join _ hrel]
  exact
    { ne_nil := join_ne_nil hp hcut
      ne_nil' := join_ne_nil (join_ne_nil hp hrel) hr
      anchor := by
        rw [anchor_join hp hcut, anchor_join (join_ne_nil hp hrel) hr, anchor_join hp hrel]
      isAbsolute := by rw [isAbsolute_join _ hcut, habs]
      stack := by
        rw [resolveStack_join _ _ hcut, resolveStack_join _ _ hr, resolveStack_join _ _ hrel,
          segments_append_slash, resolveStack_append] }

/-- A path and its normal form are the same place. -/
theorem normalize (hp : p ≠ []) : SamePlace (Path.normalize p) p := by
  have hnorm : Path.normalize p = ofStack (Path.anchor p) (resolveStack (Path.isAbsolute p) [] (segments p)) := rfl
  have hslash : ∀ s ∈ segments p, '/' ∉ s := fun s => slash_not_mem_of_mem_segments
  by_cases habs : Path.isAbsolute p = true
  · have hanch := anchored_of_absolute habs
    rw [habs] at hnorm
    rw [hnorm]
    refine ⟨ofStack_ne_nil _ _, hp, ?_, ?_, ?_⟩
    · rw [hanch.ofStack_eq]
      exact hanch.isAnchor.anchor_append (isAbsolute_ofSegments hanch.plain_reverse)
    · rw [isAbsolute_ofStack hanch (anchor_ne_nil habs), habs]
    · rw [habs, hanch.resolveStack_segments]
  · have hrel : Path.isAbsolute p = false := by simpa using habs
    obtain ⟨names, k, hrun, hnames, -⟩ :=
      resolveStack_climbs hslash (show ∀ s ∈ ([] : List Text), IsPlain s by simp) 0
    rw [List.replicate_zero, List.append_nil, Nat.zero_add] at hrun
    have hrel' :=
      isAbsolute_ofStack_nil fun s (hs : s ∈ names ++ List.replicate k up) => ne_nil_of_mem_climbed hnames hs
    rw [hrel, hrun, anchor_of_relative hrel] at hnorm
    rw [hnorm]
    refine ⟨ofStack_ne_nil _ _, hp, ?_, hrel'.trans hrel.symm, ?_⟩
    · rw [anchor_of_relative hrel, anchor_of_relative hrel']
    · rw [hrel, hrun, resolveStack_segments_climbed hnames]

end SamePlace

/-! ### Resolved paths -/

theorem isAbsolute_absolute {base : Text} (h : isAbsolute base = true) (p : Text) :
    isAbsolute (absolute base p) = true := by
  obtain ⟨a, st, hanch, ha, he⟩ := anchored_absolute h p
  rw [he]
  exact isAbsolute_ofStack hanch ha

/-- A path that was seen from an absolute one is the same from everywhere. -/
theorem absolute_absolute {base : Text} (h : isAbsolute base = true) (base' p : Text) :
    absolute base' (absolute base p) = absolute base p := by
  have hjoin : isAbsolute (join base p) = true := isAbsolute_join_of_absolute h p
  have hne : join base p ≠ [] := by
    obtain ⟨q, hq⟩ := isAbsolute_eq_true_iff.1 hjoin
    simp [hq]
  rw [absolute, join, if_pos (isAbsolute_absolute h p)]
  exact (SamePlace.normalize hne).normalize_eq

/-! ### Normal paths -/

/-- An absolute path that is its own normal form. Two slashes at its start stay two. -/
structure IsNormal (p : Text) : Prop where
  isAbsolute : Path.isAbsolute p = true
  normalize : Path.normalize p = p

theorem IsNormal.exists_stack (h : IsNormal p) : ∃ a st, Anchored a st ∧ a ≠ [] ∧ p = ofStack a st := by
  have hnorm : p = ofStack (anchor p) (resolveStack (Path.isAbsolute p) [] (segments p)) := h.normalize.symm
  rw [h.isAbsolute] at hnorm
  exact ⟨_, _, anchored_of_absolute h.isAbsolute, anchor_ne_nil h.isAbsolute, hnorm⟩

theorem Anchored.isNormal {a : Text} {st : List Text} (h : Anchored a st) (ha : a ≠ []) :
    IsNormal (ofStack a st) := by
  have hanchor : Path.anchor (ofStack a st) = a := by
    rw [h.ofStack_eq]
    exact h.isAnchor.anchor_append (isAbsolute_ofSegments h.plain_reverse)
  refine ⟨isAbsolute_ofStack h ha, ?_⟩
  rw [Path.normalize, hanchor, h.resolveStack_segments]

end Rehome.Path
