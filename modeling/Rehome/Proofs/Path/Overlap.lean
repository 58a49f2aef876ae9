import Rehome.Proofs.FileSystem.Names
import Rehome.Proofs.Path.Normal
import Rehome.Proofs.Text.Sort

/-! Paths overlap exactly where one location lies in the other, unless a second slash at the start of a path
keeps it from being its own common path. The common path of two can be read off the first and the last
of their lists of components, in the order of their first difference. -/

namespace Rehome.Path

theorem commonStart_isPrefix {α : Type} [DecidableEq α] (as bs : List α) :
    commonStart as bs <+: as ∧ commonStart as bs <+: bs := by
  induction as generalizing bs with
  | nil => simp [commonStart]
  | cons a as ih =>
    cases bs with
    | nil => simp [commonStart]
    | cons b bs =>
      by_cases h : a = b
      · simpa [commonStart, h] using ih bs
      · simp [commonStart, h]

theorem commonStart_eq_left_iff {α : Type} [DecidableEq α] {as bs : List α} :
    commonStart as bs = as ↔ as <+: bs := by
  constructor
  · intro h
    exact h ▸ (commonStart_isPrefix as bs).2
  · rintro ⟨cs, rfl⟩
    induction as with
    | nil => rfl
    | cons a as ih => simp [commonStart, ih]

theorem commonStart_comm {α : Type} [DecidableEq α] (as bs : List α) :
    commonStart as bs = commonStart bs as := by
  induction as generalizing bs with
  | nil => cases bs <;> rfl
  | cons a as ih =>
    cases bs with
    | nil => rfl
    | cons b bs =>
      by_cases h : a = b
      · simp [commonStart, h, ih]
      · simp [commonStart, h, Ne.symm h]

theorem ofSegments_inj {ss ts : List Text} (hs : ∀ s ∈ ss, IsPlain s) (ht : ∀ t ∈ ts, IsPlain t)
    (h : ofSegments ss = ofSegments ts) : ss = ts := by
  by_cases hss : ss = []
  · subst hss
    by_contra hne
    exact ofSegments_ne_nil ht (Ne.symm hne) h.symm
  · have hts : ts ≠ [] := by
      rintro rfl
      exact ofSegments_ne_nil hs hss h
    rw [← segments_ofSegments (fun s h => (hs s h).slash_not_mem) hss, h,
      segments_ofSegments (fun t h => (ht t h).slash_not_mem) hts]

/-! ### Paths of stacks -/

namespace Anchored

variable {a b : Text} {st su : List Text}

theorem components_ofStack (h : Anchored a st) : components (ofStack a st) = st.reverse := by
  have hnames (p : Text) : components p = (FileSystem.pathNames p).filter (· ≠ here) := by
    rw [components, FileSystem.pathNames, List.filter_filter]
    exact List.filter_congr fun s _ => by simp [and_comm]
  rw [hnames, FileSystem.pathNames_ofStack h, List.filter_eq_self]
  exact fun s hs => by simpa using (h.plain_reverse s hs).ne_here

/-- The path of some names behind one slash is that of a stack only if the stack has one slash, too. -/
theorem rooted_eq_ofStack_iff (h : Anchored a st) (ha : a ≠ []) {ss : List Text} (hs : ∀ s ∈ ss, IsPlain s) :
    '/' :: ofSegments ss = ofStack a st ↔ a = ['/'] ∧ ss = st.reverse := by
  rw [h.ofStack_eq]
  rcases h.isAnchor with rfl | rfl | rfl
  · exact absurd rfl ha
  · constructor
    · exact fun he => ⟨rfl, ofSegments_inj hs h.plain_reverse (List.cons.inj he).2⟩
    · rintro ⟨-, rfl⟩
      rfl
  · refine iff_of_false (fun he => ?_) fun he => by simp at he
    have hrel := isAbsolute_ofSegments hs
    rw [(List.cons.inj he).2] at hrel
    cases hrel

/-- Two absolute paths overlap where the outer one starts with one slash. -/
theorem overlaps?_ofStack (hp : Anchored a st) (ha : a ≠ []) (hq : Anchored b su) (hb : b ≠ []) :
    overlaps? (ofStack a st) (ofStack b su) =
      some (decide (a = ['/'] ∧ st <:+ su ∨ b = ['/'] ∧ su <:+ st)) := by
  have hcommon : ∀ s ∈ commonStart st.reverse su.reverse, IsPlain s :=
    fun s hs => hp.plain_reverse s ((commonStart_isPrefix _ _).1.subset hs)
  rw [overlaps?, isAbsolute_ofStack hp ha, isAbsolute_ofStack hq hb, hp.components_ofStack,
    hq.components_ofStack]
  simp only [ne_eq, not_true_eq_false, if_false, if_true, List.singleton_append]
  congr 1
  rw [Bool.eq_iff_iff, Bool.or_eq_true, decide_eq_true_eq, decide_eq_true_eq, decide_eq_true_eq,
    hp.rooted_eq_ofStack_iff ha hcommon, hq.rooted_eq_ofStack_iff hb hcommon, commonStart_eq_left_iff,
    commonStart_comm, commonStart_eq_left_iff, List.reverse_prefix, List.reverse_prefix]

end Anchored

theorem anchored_path {p : Location} (h : ∀ n ∈ p, IsPlain n) : Anchored ['/'] p :=
  ⟨.inr (.inl rfl), h, .inl (List.cons_ne_nil _ _)⟩

theorem overlaps?_path {p q : Location} (hp : ∀ n ∈ p, IsPlain n) (hq : ∀ n ∈ q, IsPlain n) :
    overlaps? p.path q.path = some (decide (p <:+ q ∨ q <:+ p)) := by
  have hstack : overlaps? p.path q.path = _ := (anchored_path hp).overlaps?_ofStack
    (List.cons_ne_nil _ _) (anchored_path hq) (List.cons_ne_nil _ _)
  rw [hstack]
  simp only [true_and]

/-- One of the two paths is the other or lies inside it, component by component. -/
def Meets (p q : Text) : Prop := components p <+: components q ∨ components q <+: components p

theorem overlaps?_comm (p q : Text) : overlaps? p q = overlaps? q p := by
  unfold overlaps?
  by_cases h : isAbsolute p = isAbsolute q
  · simp only [h, ne_eq, not_true_eq_false, if_false, commonStart_comm (components p), Bool.or_comm]
  · rw [if_pos h, if_pos (Ne.symm h)]

/-- The root has no component of its own to differ by. -/
theorem overlaps?_root {q : Text} (hq : isAbsolute q = true) : overlaps? ['/'] q = some true := by
  have hroot : components ['/'] = [] := by decide
  have habs : isAbsolute ['/'] = true := rfl
  simp [overlaps?, habs, hq, hroot, commonStart]

theorem Anchored.eq_root {a : Text} {st : List Text} (h : Anchored a st) (ha : a ≠ [])
    (hslash : ¬ ['/', '/'] <+: ofStack a st) : a = ['/'] := by
  rcases h.isAnchor with rfl | rfl | rfl
  · exact absurd rfl ha
  · rfl
  · rw [h.ofStack_eq] at hslash
    exact absurd (List.prefix_append ..) hslash

/-- Of absolute paths in normal form that start with one slash, one overlaps another exactly where the components
of one are a beginning of those of the other. So this does not depend on which comes first, the root
overlaps everything, and different names in one directory do not overlap, whatever characters they share. -/
theorem overlaps?_of_isNormal {p q : Text} (hp : IsNormal p) (hq : IsNormal q) (hp' : ¬ ['/', '/'] <+: p)
    (hq' : ¬ ['/', '/'] <+: q) :
    overlaps? p q = some (decide (components p <+: components q ∨ components q <+: components p)) ∧
      overlaps? p q = overlaps? q p ∧ overlaps? ['/'] p = some true ∧ overlaps? p ['/'] = some true ∧
      ∀ d m n, components p = d ++ [m] → components q = d ++ [n] → m ≠ n → overlaps? p q = some false := by
  have hmeets : overlaps? p q = some (decide (components p <+: components q ∨ components q <+: components p)) := by
    obtain ⟨a, st, hst, ha, rfl⟩ := hp.exists_stack
    obtain ⟨b, su, hsu, hb, rfl⟩ := hq.exists_stack
    rw [hst.overlaps?_ofStack ha hsu hb, hst.components_ofStack, hsu.components_ofStack]
    simp only [hst.eq_root ha hp', hsu.eq_root hb hq', true_and, List.reverse_prefix]
  have hroot := overlaps?_root hp.isAbsolute
  refine ⟨hmeets, overlaps?_comm p q, hroot, (overlaps?_comm p _).trans hroot, fun d m n hm hn hne => ?_⟩
  rw [hmeets, hm, hn]
  simp [hne, Ne.symm hne]

theorem overlaps?_of_isNormal_siblings :
    overlaps? "/srv/types".toList "/srv/types-old".toList = some false ∧
      overlaps? "/srv/types".toList "/".toList = some true := by
  have hnormal : IsNormal "/srv/types".toList := ⟨by decide, by decide⟩
  have hnormal' : IsNormal "/srv/types-old".toList := ⟨by decide, by decide⟩
  obtain ⟨-, -, -, hroot, hsiblings⟩ := overlaps?_of_isNormal hnormal hnormal' (by decide) (by decide)
  have hcomponents : components "/srv/types".toList = ["srv".toList] ++ ["types".toList] := by decide
  have hcomponents' : components "/srv/types-old".toList = ["srv".toList] ++ ["types-old".toList] := by decide
  exact ⟨hsiblings _ _ _ hcomponents hcomponents' (by decide), hroot⟩

/-- A normal path that starts with two slashes is not its own common path, so it does not overlap itself or what
lies in it. -/
theorem overlaps?_misses_itself :
    IsNormal "//b".toList ∧ overlaps? "//b".toList "//b".toList = some false ∧
      components "//b".toList <+: components "//b/c".toList ∧
        overlaps? "//b".toList "//b/c".toList = some false :=
  ⟨⟨by decide, by decide⟩, by decide, by decide, by decide⟩

/-! ### The first and the last -/

/-- Lists of texts in the order of their first difference, and a beginning before what it begins. -/
def comesFirst : List Text → List Text → Bool
  | [], _ => true
  | _ :: _, [] => false
  | s :: ss, t :: ts => if s = t then comesFirst ss ts else s.precedes t

theorem comesFirst_total (ss ts : List Text) : comesFirst ss ts = true ∨ comesFirst ts ss = true := by
  induction ss generalizing ts with
  | nil => exact .inl rfl
  | cons s ss ih =>
    cases ts with
    | nil => exact .inr rfl
    | cons t ts =>
      by_cases h : s = t
      · simpa [comesFirst, h] using ih ts
      · simpa [comesFirst, h, Ne.symm h] using Text.precedes_total s t

/-- How far `ss` agrees with `ts`, position by position. Where `ts` ends before a difference is found there is
nothing left to compare with. -/
def agreement? : List Text → List Text → Option (List Text)
  | [], _ => some []
  | _ :: _, [] => none
  | s :: ss, t :: ts => if s = t then (agreement? ss ts).map (s :: ·) else some []

/-- A list that comes first is not longer than one that it agrees with. -/
theorem agreement?_of_comesFirst {ss ts : List Text} (h : comesFirst ss ts = true) :
    agreement? ss ts = some (commonStart ss ts) := by
  induction ss generalizing ts with
  | nil => simp [agreement?, commonStart]
  | cons s ss ih =>
    cases ts with
    | nil => cases h
    | cons t ts =>
      by_cases hst : s = t
      · have htail : comesFirst ss ts = true := by simpa [comesFirst, hst] using h
        simp [agreement?, commonStart, hst, ih htail]
      · simp [agreement?, commonStart, hst]

/-- The common path of two, where only the first and the last of the lists of components are compared. -/
def commonPath? (p q : Text) : Option Text :=
  if isAbsolute p ≠ isAbsolute q then none
  else
    let root := if isAbsolute p then ['/'] else []
    let (first, last) :=
      if comesFirst (components p) (components q) then (components p, components q)
      else (components q, components p)
    (agreement? first last).map fun common => root ++ ofSegments common

/-- That comparison never runs out of components, and two paths overlap exactly where their common path is
one of them. -/
theorem overlaps?_eq_commonPath? (p q : Text) :
    overlaps? p q = (commonPath? p q).map fun common => decide (common = p) || decide (common = q) := by
  unfold overlaps? commonPath?
  split
  · rfl
  by_cases h : comesFirst (components p) (components q) = true
  · simp [h, agreement?_of_comesFirst h]
  · have h' := (comesFirst_total _ _).resolve_left h
    simp [h, agreement?_of_comesFirst h', commonStart_comm (components p)]

end Rehome.Path
