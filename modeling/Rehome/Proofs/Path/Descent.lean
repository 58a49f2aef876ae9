import Rehome.Proofs.Path.Segments

/-! Paths below a path. Segments that never lead above where they start do the same over any stack,
so what they denote does not depend on what lies below. -/

namespace Rehome.Path

/-- The path below `p` along the segments. -/
def descend (p : Text) (ss : List Text) : Text := ss.foldl join p

@[simp] theorem descend_nil (p : Text) : descend p [] = p := rfl

@[simp] theorem descend_cons (p s : Text) (ss : List Text) :
    descend p (s :: ss) = descend (join p s) ss := rfl

theorem descend_concat (p : Text) (ss : List Text) (s : Text) :
    descend p (ss ++ [s]) = join (descend p ss) s := List.foldl_append ..

theorem prefix_join (p : Text) {q : Text} (hq : isAbsolute q = false) : p <+: join p q := by
  rw [join, if_neg (by simp [hq])]
  split
  · exact List.prefix_append ..
  · exact List.prefix_append ..

theorem join_append (p : Text) {q : Text} (hne : q ≠ []) (hq : isAbsolute q = false) (r : Text) :
    join p (q ++ r) = join p q ++ r := by
  have hall : isAbsolute (q ++ r) = false := by
    obtain ⟨c, q, rfl⟩ := List.exists_cons_of_ne_nil hne
    exact hq
  unfold join
  simp only [hall, hq, Bool.false_eq_true, if_false]
  split
  · exact (List.append_assoc ..).symm
  · exact (List.append_assoc p ('/' :: q) r).symm

/-- At no point do the segments lead up more often than `depth` and the plain ones so far allow. -/
def StaysWithin (depth : Nat) (ss : List Text) : Prop :=
  ∀ pre, pre <+: ss → pre.count up ≤ depth + pre.countP (fun s => IsPlain s)

instance (depth : Nat) (ss : List Text) : Decidable (StaysWithin depth ss) :=
  decidable_of_iff (∀ pre ∈ ss.inits, pre.count up ≤ depth + pre.countP (fun s => IsPlain s))
    (by simp only [List.mem_inits, StaysWithin])

namespace StaysWithin

variable {depth : Nat} {s : Text} {ss : List Text}

theorem of_isPrefix {pre : List Text} (h : StaysWithin depth ss) (hpre : pre <+: ss) :
    StaysWithin depth pre := fun p hp => h p (hp.trans hpre)

theorem of_plain (h : ∀ s ∈ ss, IsPlain s) : StaysWithin depth ss := by
  intro pre hpre
  have hup : pre.count up = 0 :=
    List.count_eq_zero.2 fun hm => (h up (hpre.subset hm)).ne_up rfl
  omega

theorem filter {f : Text → Bool} (h : StaysWithin depth ss) (hup : f up = true)
    (hplain : ∀ s, IsPlain s → f s = true) : StaysWithin depth (ss.filter f) := by
  rintro pre ⟨tail, hpre⟩
  obtain ⟨all, rest, rfl, rfl, -⟩ := List.filter_eq_append_iff.1 hpre.symm
  have hall := h all (List.prefix_append ..)
  have hcount : (all.filter f).countP (fun s => IsPlain s) = all.countP fun s => IsPlain s := by
    rw [List.countP_filter]
    refine List.countP_congr fun s _ => ?_
    simpa using hplain s
  rwa [List.count_filter hup, hcount]

theorem of_cons_skipped (h : StaysWithin depth (s :: ss)) (hs : s ≠ up) (hp : ¬ IsPlain s) :
    StaysWithin depth ss := by
  intro pre hpre
  simpa [List.count_cons, hs, hp] using h (s :: pre) (List.cons_prefix_cons.2 ⟨rfl, hpre⟩)

theorem of_cons_up (h : StaysWithin depth (up :: ss)) : ∃ d, depth = d + 1 ∧ StaysWithin d ss := by
  have hup : ¬ IsPlain up := by decide
  have hfirst := h [up] (List.cons_prefix_cons.2 ⟨rfl, List.nil_prefix⟩)
  simp only [List.count_singleton_self, List.countP_singleton, hup, decide_false] at hfirst
  obtain ⟨d, rfl⟩ := Nat.exists_eq_add_of_lt hfirst
  refine ⟨d, by omega, fun pre hpre => ?_⟩
  have := h (up :: pre) (List.cons_prefix_cons.2 ⟨rfl, hpre⟩)
  simp only [List.count_cons_self, List.countP_cons, hup, decide_false] at this
  simp only [Bool.false_eq_true, if_false] at this
  omega

theorem of_cons_plain (h : StaysWithin depth (s :: ss)) (hp : IsPlain s) :
    StaysWithin (depth + 1) ss := by
  intro pre hpre
  have := h (s :: pre) (List.cons_prefix_cons.2 ⟨rfl, hpre⟩)
  simp only [List.count_cons_of_ne hp.ne_up, List.countP_cons, hp, decide_true, if_true] at this
  omega

end StaysWithin

/-- The base of a stack stays as it is under segments that stay within what lies on it. -/
theorem resolveStack_above {ds ss : List Text} (hd : ∀ s ∈ ds, IsPlain s) (hs : ∀ s ∈ ss, '/' ∉ s)
    (h : StaysWithin ds.length ss) :
    ∃ t, (∀ s ∈ t, IsPlain s) ∧ ∀ r base, resolveStack r (ds ++ base) ss = t ++ base := by
  induction ss generalizing ds with
  | nil => exact ⟨ds, hd, fun _ _ => rfl⟩
  | cons s ss ih =>
    have hss : ∀ s ∈ ss, '/' ∉ s := fun t ht => hs t (List.mem_cons_of_mem _ ht)
    rcases segment_cases (hs s List.mem_cons_self) with rfl | rfl | rfl | hp
    · obtain ⟨t, ht, hr⟩ := ih hd hss (h.of_cons_skipped (by decide) (by decide))
      exact ⟨t, ht, fun r base => by rw [resolveStack_cons, push_nil, hr]⟩
    · obtain ⟨t, ht, hr⟩ := ih hd hss (h.of_cons_skipped (by decide) (by decide))
      exact ⟨t, ht, fun r base => by rw [resolveStack_cons, push_here, hr]⟩
    · obtain ⟨d, hlen, h⟩ := h.of_cons_up
      cases ds with
      | nil => cases hlen
      | cons top ds =>
        obtain rfl : ds.length = d := by simpa using hlen
        obtain ⟨t, ht, hr⟩ := ih (fun s hs => hd s (List.mem_cons_of_mem _ hs)) hss h
        refine ⟨t, ht, fun r base => ?_⟩
        rw [resolveStack_cons, List.cons_append,
          push_up_cons _ _ (hd top List.mem_cons_self).ne_up, hr]
    · have hd' : ∀ t ∈ s :: ds, IsPlain t := List.forall_mem_cons.2 ⟨hp, hd⟩
      obtain ⟨t, ht, hr⟩ := ih hd' hss (h.of_cons_plain hp)
      exact ⟨t, ht, fun r base => by rw [resolveStack_cons, push_plain _ _ hp, ← hr r base]; rfl⟩

/-! ### Anchored stacks -/

/-- What a normalised path starts with. -/
def IsAnchor (a : Text) : Prop := a = [] ∨ a = ['/'] ∨ a = ['/', '/']

theorem isAnchor_anchor (p : Text) : IsAnchor (anchor p) := by
  unfold anchor IsAnchor
  split <;> simp

theorem isAbsolute_eq_false_of_plain {s : Text} (h : IsPlain s) : isAbsolute s = false := by
  rw [← Bool.not_eq_true, isAbsolute_eq_true_iff]
  rintro ⟨q, rfl⟩
  exact h.slash_not_mem List.mem_cons_self

theorem anchor_of_relative {p : Text} (h : isAbsolute p = false) : anchor p = [] := by
  unfold anchor
  split <;> simp_all [isAbsolute]

namespace IsAnchor

variable {a : Text}

theorem anchor_append (ha : IsAnchor a) {q : Text} (hq : isAbsolute q = false) :
    anchor (a ++ q) = a := by
  cases q with
  | nil => rcases ha with rfl | rfl | rfl <;> rfl
  | cons c q =>
    have hc : c ≠ '/' := by
      rintro rfl
      cases hq
    rcases ha with rfl | rfl | rfl
    · exact anchor_of_relative hq
    · simp [anchor, hc]
    · simp [anchor, hc]

theorem endsInSlash (ha : IsAnchor a) (h : a ≠ []) : endsInSlash a = true := by
  rcases ha with rfl | rfl | rfl
  · exact absurd rfl h
  · rfl
  · rfl

theorem segments_append (ha : IsAnchor a) (r : Bool) (q : Text) :
    resolveStack r [] (segments (a ++ q)) = resolveStack r [] (segments q) := by
  have hroot (q : Text) : resolveStack r [] (segments ('/' :: q)) =
      resolveStack r [] (segments q) := by
    rw [← List.nil_append ('/' :: q), segments_append_slash, resolveStack_append]
    rfl
  rcases ha with rfl | rfl | rfl
  · rfl
  · exact hroot q
  · exact (hroot ('/' :: q)).trans (hroot q)

end IsAnchor

theorem isAbsolute_join (p : Text) {q : Text} (hq : isAbsolute q = false) :
    isAbsolute (join p q) = isAbsolute p := by
  cases p with
  | nil =>
    rw [join, if_neg (by simp [hq]), if_pos (.inl rfl), List.nil_append, hq]
    rfl
  | cons c p =>
    rw [join, if_neg (by simp [hq])]
    split <;> rfl

section

variable {ss : List Text} (h : ∀ s ∈ ss, IsPlain s)
include h

theorem ofSegments_ne_nil (hne : ss ≠ []) : ofSegments ss ≠ [] := by
  intro hnil
  rcases ofSegments_eq_nil hnil with rfl | rfl
  · exact hne rfl
  · exact (h [] List.mem_cons_self).ne_nil rfl

theorem isAbsolute_ofSegments_append (hne : ss ≠ []) (q : Text) :
    isAbsolute (ofSegments ss ++ q) = false := by
  obtain ⟨s, ss, rfl⟩ := List.exists_cons_of_ne_nil hne
  have hs := isAbsolute_eq_false_of_plain (h s List.mem_cons_self)
  obtain ⟨c, r, rfl⟩ := List.exists_cons_of_ne_nil (h s List.mem_cons_self).ne_nil
  by_cases hss : ss = []
  · rw [hss, ofSegments_singleton]
    exact hs
  · rw [ofSegments_cons hss]
    exact hs

theorem isAbsolute_ofSegments : isAbsolute (ofSegments ss) = false := by
  by_cases hne : ss = []
  · rw [hne]
    rfl
  · simpa using isAbsolute_ofSegments_append h hne []

end

/-- A stack of plain segments that stands for a path on its own: it is not the empty relative one. -/
structure Anchored (a : Text) (st : List Text) : Prop where
  isAnchor : IsAnchor a
  plain : ∀ s ∈ st, IsPlain s
  named : a ≠ [] ∨ st ≠ []

namespace Anchored

variable {a : Text} {st : List Text}

theorem push (h : Anchored a st) {s : Text} (hs : IsPlain s) : Anchored a (s :: st) :=
  ⟨h.isAnchor, List.forall_mem_cons.2 ⟨hs, h.plain⟩, .inr (List.cons_ne_nil _ _)⟩

theorem append (h : Anchored a st) {ss : List Text} (hs : ∀ s ∈ ss, IsPlain s) :
    Anchored a (ss ++ st) :=
  ⟨h.isAnchor, List.forall_mem_append.2 ⟨hs, h.plain⟩, h.named.imp_right (by simp_all)⟩

theorem plain_reverse (h : Anchored a st) : ∀ s ∈ st.reverse, IsPlain s :=
  fun s hs => h.plain s (List.mem_reverse.1 hs)

theorem ofStack_eq (h : Anchored a st) : ofStack a st = a ++ ofSegments st.reverse := by
  unfold ofStack
  split
  · next hnil =>
    obtain ⟨rfl, hs⟩ := List.append_eq_nil_iff.1 hnil
    have hst : st.reverse ≠ [] := by simpa using h.named
    exact absurd hs (ofSegments_ne_nil h.plain_reverse hst)
  · rfl

theorem resolveStack_segments (h : Anchored a st) (r : Bool) :
    resolveStack r [] (segments (ofStack a st)) = st := by
  rw [h.ofStack_eq, h.isAnchor.segments_append]
  by_cases hst : st = []
  · subst hst
    exact push_nil r []
  · rw [segments_ofSegments (fun s hs => (h.plain_reverse s hs).slash_not_mem)
      (by simpa using hst), resolveStack_plain r [] h.plain_reverse]
    simp

theorem endsInSlash_eq_false (h : Anchored a st) (hst : st ≠ []) :
    endsInSlash (ofStack a st) = false := by
  obtain ⟨s, st, rfl⟩ := List.exists_cons_of_ne_nil hst
  have hs := endsInSlash_ofSegments st.reverse (h.plain s List.mem_cons_self)
  have hne := ofSegments_ne_nil h.plain_reverse (by simp)
  rw [List.reverse_cons] at hne
  rw [h.ofStack_eq, List.reverse_cons]
  rw [endsInSlash, decide_eq_false_iff_not] at hs ⊢
  rwa [List.getLast?_append_of_ne_nil _ hne]

/-- How a relative path is put below: after a slash, unless the stack is a bare root. -/
theorem join_eq (h : Anchored a st) {q : Text} (hq : isAbsolute q = false) :
    join (ofStack a st) q =
      a ++ if st = [] then q else ofSegments st.reverse ++ '/' :: q := by
  rw [join, if_neg (by simp [hq])]
  by_cases hst : st = []
  · subst hst
    have ha := h.named.resolve_right (by simp)
    rw [h.ofStack_eq, List.reverse_nil, ofSegments_nil, List.append_nil,
      if_pos (.inr (h.isAnchor.endsInSlash ha)), if_pos rfl]
  · rw [if_neg (not_or.2 ⟨ofStack_ne_nil a st, by rw [h.endsInSlash_eq_false hst]; simp⟩),
      if_neg hst, h.ofStack_eq, List.append_assoc]

theorem join_ofStack (h : Anchored a st) {s : Text} (hs : IsPlain s) :
    join (ofStack a st) s = ofStack a (s :: st) := by
  rw [h.join_eq (isAbsolute_eq_false_of_plain hs), (h.push hs).ofStack_eq, List.reverse_cons]
  by_cases hst : st = []
  · simp [hst]
  · rw [if_neg hst, ofSegments_append (by simpa using hst) (by simp), ofSegments_singleton]

theorem descend_ofStack (h : Anchored a st) {ss : List Text} (hs : ∀ s ∈ ss, IsPlain s) :
    descend (ofStack a st) ss = ofStack a (ss.reverse ++ st) := by
  induction ss generalizing st with
  | nil => rfl
  | cons s ss ih =>
    have hp := hs s List.mem_cons_self
    rw [descend_cons, h.join_ofStack hp, ih (h.push hp) fun t ht => hs t (List.mem_cons_of_mem _ ht)]
    simp

/-- A relative path below an anchored stack is normalised by running its segments over the stack. -/
theorem normalize_join (h : Anchored a st) {q : Text} (hq : isAbsolute q = false) :
    normalize (join (ofStack a st) q) =
      ofStack a (resolveStack (isAbsolute (ofStack a st)) st (segments q)) := by
  have hanchor : anchor (join (ofStack a st) q) = a := by
    rw [h.join_eq hq]
    split
    · exact h.isAnchor.anchor_append hq
    · next hst =>
      exact h.isAnchor.anchor_append
        (isAbsolute_ofSegments_append h.plain_reverse (by simpa using hst) _)
  rw [normalize, hanchor, isAbsolute_join _ hq, resolveStack_join _ _ hq,
    h.resolveStack_segments]

end Anchored

/-- Below a root no `..` stays. -/
theorem plain_of_mem_resolveStack {ss st : List Text} (hs : ∀ s ∈ ss, '/' ∉ s)
    (hst : ∀ s ∈ st, IsPlain s) : ∀ s ∈ resolveStack true st ss, IsPlain s := by
  induction ss generalizing st with
  | nil => exact hst
  | cons s ss ih =>
    refine ih (fun t ht => hs t (List.mem_cons_of_mem _ ht)) ?_
    rcases segment_cases (hs s List.mem_cons_self) with rfl | rfl | rfl | hp
    · rwa [push_nil]
    · rwa [push_here]
    · cases st with
      | nil => exact fun t ht => by cases ht
      | cons top st =>
        rw [push_up_cons _ _ (hst top List.mem_cons_self).ne_up]
        exact fun t ht => hst t (List.mem_cons_of_mem _ ht)
    · rw [push_plain _ _ hp]
      exact List.forall_mem_cons.2 ⟨hp, hst⟩

theorem anchor_ne_nil {p : Text} (h : isAbsolute p = true) : anchor p ≠ [] := by
  obtain ⟨q, rfl⟩ := isAbsolute_eq_true_iff.1 h
  unfold anchor
  split <;> simp_all

/-- The stack that a normalised absolute path is the path of. -/
theorem anchored_of_absolute {p : Text} (h : isAbsolute p = true) :
    Anchored (anchor p) (resolveStack true [] (segments p)) where
  isAnchor := isAnchor_anchor p
  plain := plain_of_mem_resolveStack (fun _ => slash_not_mem_of_mem_segments) (by simp)
  named := .inl (anchor_ne_nil h)

/-- The stack that a path of plain segments only is the path of. -/
theorem anchored_of_plain {p : Text} (h : ∀ s ∈ segments p, IsPlain s) :
    Anchored [] (segments p).reverse where
  isAnchor := .inl rfl
  plain := fun s hs => h s (List.mem_reverse.1 hs)
  named := .inr (by simp)

theorem ofStack_segments_reverse {p : Text} (h : ∀ s ∈ segments p, IsPlain s) :
    ofStack [] (segments p).reverse = p := by
  rw [(anchored_of_plain h).ofStack_eq, List.reverse_reverse, List.nil_append, ofSegments_segments]

theorem isAbsolute_ofStack {a : Text} {st : List Text} (h : Anchored a st) (ha : a ≠ []) :
    isAbsolute (ofStack a st) = true := by
  rw [h.ofStack_eq]
  rcases h.isAnchor with rfl | rfl | rfl
  · exact absurd rfl ha
  · rfl
  · rfl

theorem isAbsolute_join_of_absolute {p : Text} (hp : isAbsolute p = true) (q : Text) :
    isAbsolute (join p q) = true := by
  by_cases hq : isAbsolute q = true
  · rwa [join, if_pos hq]
  · rw [isAbsolute_join p (by simpa using hq), hp]

/-- The stack of a path that is seen from a directory. -/
theorem anchored_absolute {cwd : Text} (hcwd : isAbsolute cwd = true) (p : Text) :
    ∃ a st, Anchored a st ∧ a ≠ [] ∧ absolute cwd p = ofStack a st := by
  have h := isAbsolute_join_of_absolute hcwd p
  refine ⟨_, _, anchored_of_absolute h, anchor_ne_nil h, ?_⟩
  rw [absolute, normalize, h]

/-! ### Going on -/

theorem reverse_of_plain {n : Text} (hn : IsPlain n) : ∀ c ∈ n.reverse, decide (c ≠ '/') = true := by
  intro c hc
  have hne : c ≠ '/' := fun he => hn.slash_not_mem (he ▸ List.mem_reverse.1 hc)
  simpa using hne

/-- A path that ends in a name, or at least in no slash. -/
structure Ends (p : Text) : Prop where
  ne_nil : p ≠ []
  slash : endsInSlash p = false

namespace Ends

variable {p n : Text} {ss : List Text}

theorem join_eq (h : Ends p) {q : Text} (hq : isAbsolute q = false) : join p q = p ++ '/' :: q := by
  rw [join, if_neg (by simp [hq]), if_neg (by simp [h.ne_nil, h.slash])]

theorem of_plain (hn : IsPlain n) : Ends n :=
  ⟨hn.ne_nil, by simpa using endsInSlash_ofSegments [] hn⟩

theorem ofSegments (hs : ∀ s ∈ ss, IsPlain s) (hne : ss ≠ []) : Ends (ofSegments ss) := by
  refine ⟨ofSegments_ne_nil hs hne, ?_⟩
  obtain ⟨init, n, rfl⟩ := (List.eq_nil_or_concat ss).resolve_left hne
  rw [List.concat_eq_append]
  exact endsInSlash_ofSegments init (hs n (by simp))

/-- Whatever there is before, the end is that of what follows. -/
theorem join (p : Text) {q : Text} (h : Ends q) (hq : isAbsolute q = false) : Ends (join p q) := by
  have hend : ∀ r : Text, endsInSlash (r ++ q) = false := by
    intro r
    have hlast := h.slash
    rwa [endsInSlash, ← List.getLast?_append_of_ne_nil r h.ne_nil, ← endsInSlash] at hlast
  rw [Path.join, if_neg (by simp [hq])]
  split
  · exact ⟨List.append_ne_nil_of_right_ne_nil _ h.ne_nil, hend p⟩
  · refine ⟨by simp, ?_⟩
    have hlast := hend (p ++ ['/'])
    rwa [List.append_assoc] at hlast

theorem join_plain (p : Text) (hn : IsPlain n) : Ends (Path.join p n) :=
  join p (of_plain hn) (isAbsolute_eq_false_of_plain hn)

theorem descend (h : Ends p) (hs : ∀ s ∈ ss, IsPlain s) : Ends (descend p ss) := by
  induction ss generalizing p with
  | nil => exact h
  | cons s ss ih =>
    exact ih (join_plain p (hs s List.mem_cons_self)) fun t ht => hs t (List.mem_cons_of_mem _ ht)

/-- The last name of a path is cut off. -/
theorem split_join (h : Ends p) (hn : IsPlain n) : split (Path.join p n) = (p, n) := by
  have hname := reverse_of_plain hn
  have hhead : (p.reverse).dropWhile (· = '/') = p.reverse := by
    rcases hr : p.reverse with _ | ⟨c, r⟩
    · rfl
    · have hlast := h.slash
      rw [endsInSlash, ← List.head?_reverse, hr, List.head?_cons] at hlast
      exact List.dropWhile_cons_of_neg (by simpa using hlast)
  rw [h.join_eq (isAbsolute_eq_false_of_plain hn)]
  unfold split
  rw [List.reverse_append, List.reverse_cons, List.append_assoc, List.singleton_append,
    List.takeWhile_append_of_pos hname, List.dropWhile_append_of_pos hname,
    List.takeWhile_cons_of_neg (by simp), List.dropWhile_cons_of_neg (by simp), List.append_nil]
  dsimp only
  rw [List.dropWhile_cons_of_pos (by simp), hhead, List.reverse_reverse]
  split
  · next hnil => exact absurd (List.reverse_eq_nil_iff.1 hnil) h.ne_nil
  · next hne => rw [List.reverse_reverse]

end Ends

/-- To go on along several names is to go on along one after the other. -/
theorem join_ofSegments (p : Text) {ss : List Text} (hs : ∀ s ∈ ss, IsPlain s) (hne : ss ≠ []) :
    join p (ofSegments ss) = descend p ss := by
  induction ss generalizing p with
  | nil => exact absurd rfl hne
  | cons s ss ih =>
    obtain ⟨hp, hrest⟩ := List.forall_mem_cons.1 hs
    by_cases hss : ss = []
    · rw [hss, ofSegments_singleton, descend_cons, descend_nil]
    · have hrel := isAbsolute_eq_false_of_plain hp
      rw [descend_cons, ← ih (join p s) hrest hss,
        (Ends.join_plain p hp).join_eq (isAbsolute_ofSegments hrest), ofSegments_cons hss,
        join_append p hp.ne_nil hrel]

end Rehome.Path
