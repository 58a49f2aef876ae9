import Mathlib.Data.List.TakeWhile
import Rehome.FileSystem.Walk
import Rehome.Proofs.Path.Descent

/-! The names of a path. Joined paths have the names of both, and splitting takes off the last name. -/

namespace Rehome.FileSystem

open Rehome.Path (IsPlain)

theorem mem_pathNames {n p : Text} (h : n ∈ pathNames p) : n ≠ [] ∧ '/' ∉ n := by
  rw [pathNames, List.mem_filter] at h
  exact ⟨by simpa using h.2, Path.slash_not_mem_of_mem_segments h.1⟩

theorem pathNames_append_slash (p q : Text) : pathNames (p ++ '/' :: q) = pathNames p ++ pathNames q := by
  rw [pathNames, Path.segments_append_slash, List.filter_append]
  rfl

theorem pathNames_join (p : Text) {q : Text} (hq : Path.isAbsolute q = false) :
    pathNames (Path.join p q) = pathNames p ++ pathNames q := by
  rw [Path.join, if_neg (by simp [hq])]
  split
  · next h =>
    rcases h with rfl | h
    · rfl
    · obtain ⟨p, rfl⟩ := Path.endsInSlash_eq_true_iff.1 h
      rw [List.append_assoc, List.singleton_append, pathNames_append_slash, pathNames_append_slash,
        show pathNames [] = [] from rfl, List.append_nil]
  · exact pathNames_append_slash p q

theorem pathNames_ofSegments {ss : List Text} (h : ∀ s ∈ ss, IsPlain s) :
    pathNames (Path.ofSegments ss) = ss := by
  by_cases hss : ss = []
  · rw [hss]
    rfl
  · rw [pathNames, Path.segments_ofSegments (fun s hs => (h s hs).slash_not_mem) hss,
      List.filter_eq_self]
    exact fun s hs => by simpa using (h s hs).ne_nil

theorem pathNames_ofStack {a : Text} {st : List Text} (h : Path.Anchored a st) :
    pathNames (Path.ofStack a st) = st.reverse := by
  have hslash : ∀ q, pathNames ('/' :: q) = pathNames q := fun q => pathNames_append_slash [] q
  rw [h.ofStack_eq]
  rcases h.isAnchor with rfl | rfl | rfl
  · exact pathNames_ofSegments h.plain_reverse
  · exact (hslash _).trans (pathNames_ofSegments h.plain_reverse)
  · exact (hslash _).trans ((hslash _).trans (pathNames_ofSegments h.plain_reverse))

theorem filter_ofSegments {ss : List Text} (h : ∀ s ∈ ss, '/' ∉ s) :
    (Path.ofSegments ss).filter (· ≠ '/') = ss.flatten := by
  induction ss with
  | nil => rfl
  | cons s ss ih =>
    have hs : s.filter (· ≠ '/') = s := List.filter_eq_self.2 fun c hc => by
      simpa using fun he : c = '/' => h s List.mem_cons_self (he ▸ hc)
    have hss := ih fun t ht => h t (List.mem_cons_of_mem _ ht)
    by_cases hnil : ss = []
    · rw [hnil, Path.ofSegments_singleton, hs, List.flatten_singleton]
    · rw [Path.ofSegments_cons hnil, List.filter_append, hs, List.filter_cons_of_neg (by simp), hss,
        List.flatten_cons]

theorem flatten_pathNames (p : Text) : (pathNames p).flatten = p.filter (· ≠ '/') := by
  rw [pathNames, List.flatten_filter_ne_nil,
    ← filter_ofSegments fun _ => Path.slash_not_mem_of_mem_segments, Path.ofSegments_segments]

/-- A character of a path that is no slash is one of a name. -/
theorem exists_pathName_of_mem {c : Char} {p : Text} (h : c ∈ p) (hc : c ≠ '/') : ∃ n ∈ pathNames p, c ∈ n := by
  have hflat : c ∈ (pathNames p).flatten := by
    rw [flatten_pathNames]
    exact List.mem_filter.2 ⟨h, by simpa using hc⟩
  exact List.mem_flatten.1 hflat

/-- A beginning of a path has no more names than the path. -/
theorem eq_nil_of_isPrefix {p q : Text} {ns : List Text} (h : p <+: q)
    (hns : pathNames p = pathNames q ++ ns) : ns = [] := by
  have hlen := (h.filter (· ≠ '/')).length_le
  rw [← flatten_pathNames, ← flatten_pathNames, hns, List.flatten_append, List.length_append] at hlen
  have hflat : ns.flatten = [] := List.length_eq_zero_iff.1 (by omega)
  cases ns with
  | nil => rfl
  | cons n ns =>
    have hn : n ≠ [] := (mem_pathNames (hns ▸ List.mem_append_right _ List.mem_cons_self)).1
    exact absurd (List.append_eq_nil_iff.1 hflat).1 hn

theorem ne_slash_of_pathNames_eq_nil {p : Text} (h : pathNames p = []) : ∀ c ∈ p, c = '/' := by
  intro c hc
  have hf := flatten_pathNames p
  rw [h] at hf
  have := List.filter_eq_nil_iff.1 hf.symm c hc
  simpa using this

theorem pathNames_eq_singleton {p : Text} (hne : p ≠ []) (h : '/' ∉ p) : pathNames p = [p] := by
  rw [pathNames, Path.segments_eq_singleton h]
  simp [hne]

theorem pathNames_append_slashes (p : Text) {w : Text} (hw : ∀ c ∈ w, c = '/') :
    pathNames (p ++ w) = pathNames p := by
  induction w generalizing p with
  | nil => rw [List.append_nil]
  | cons c w ih =>
    obtain rfl : c = '/' := hw c List.mem_cons_self
    have hnil := ih [] fun c hc => hw c (List.mem_cons_of_mem _ hc)
    rw [pathNames_append_slash, ← List.nil_append w, hnil, show pathNames [] = [] from rfl,
      List.append_nil]

/-- The head of a path before the slashes that end it, and what follows these. -/
theorem eq_split (p : Text) :
    ∃ head w, p = head ++ (Path.split p).2 ∧ '/' ∉ (Path.split p).2 ∧
      (head = [] ∨ Path.endsInSlash head = true) ∧ head = (Path.split p).1 ++ w ∧
      ∀ c ∈ w, c = '/' := by
  let tail := p.reverse.takeWhile (· ≠ '/')
  let head := p.reverse.dropWhile (· ≠ '/')
  have hp : p = head.reverse ++ tail.reverse := by
    rw [← List.reverse_append, List.takeWhile_append_dropWhile, List.reverse_reverse]
  have htail : '/' ∉ tail.reverse := fun hm => by
    simpa using List.mem_takeWhile_imp (List.mem_reverse.1 hm)
  have hslash : head.reverse = [] ∨ Path.endsInSlash head.reverse = true := by
    rcases hh : head with _ | ⟨c, h⟩
    · exact .inl rfl
    · have hd := List.head?_dropWhile_not (· ≠ '/') p.reverse
      rw [show p.reverse.dropWhile (· ≠ '/') = c :: h from hh] at hd
      exact .inr (by simpa [Path.endsInSlash] using hd)
  have hend : ∀ c ∈ (head.takeWhile (· = '/')).reverse, c = '/' := fun c hc => by
    simpa using List.mem_takeWhile_imp (List.mem_reverse.1 hc)
  have hhead : head.reverse =
      (head.dropWhile (· = '/')).reverse ++ (head.takeWhile (· = '/')).reverse := by
    rw [← List.reverse_append, List.takeWhile_append_dropWhile]
  unfold Path.split
  dsimp only
  split
  · exact ⟨head.reverse, [], hp, htail, hslash, (List.append_nil _).symm, by simp⟩
  · exact ⟨head.reverse, _, hp, htail, hslash, hhead, hend⟩

/-- A head is a root and stays, or does not end in a slash. -/
theorem split_cases (p : Text) :
    p = (Path.split p).1 ++ (Path.split p).2 ∧ (∀ c ∈ (Path.split p).1, c = '/') ∨
      (Path.split p).1 ≠ [] ∧ Path.endsInSlash (Path.split p).1 = false := by
  let tail := p.reverse.takeWhile (· ≠ '/')
  let head := p.reverse.dropWhile (· ≠ '/')
  have hp : p = head.reverse ++ tail.reverse := by
    rw [← List.reverse_append, List.takeWhile_append_dropWhile, List.reverse_reverse]
  unfold Path.split
  dsimp only
  split
  · next hnil =>
    refine .inl ⟨hp, fun c hc => ?_⟩
    simpa using List.dropWhile_eq_nil_iff.1 hnil c (List.mem_reverse.1 hc)
  · next hne =>
    refine .inr ⟨by simpa using hne, ?_⟩
    have hd := List.head?_dropWhile_not (· = '/') head
    rcases ht : head.dropWhile (· = '/') with _ | ⟨c, l⟩
    · exact absurd ht hne
    · rw [ht] at hd
      have hc : c ≠ '/' := by simpa using hd
      show decide ((c :: l).reverse.getLast? = some '/') = false
      rw [List.getLast?_reverse]
      simpa using hc

theorem split_fst_ne_nil {p : Text} (h : Path.isAbsolute p = true) : (Path.split p).1 ≠ [] := by
  intro hnil
  rcases split_cases p with ⟨he, -⟩ | ⟨hne, -⟩
  · obtain ⟨-, -, -, hslash, -⟩ := eq_split p
    obtain ⟨r, hr⟩ := Path.isAbsolute_eq_true_iff.1 h
    rw [hnil, List.nil_append] at he
    rw [← he, hr] at hslash
    exact hslash List.mem_cons_self
  · exact hne hnil

theorem pathNames_split (p : Text) :
    pathNames p = pathNames (Path.split p).1 ++ pathNames (Path.split p).2 := by
  obtain ⟨head, w, hp, -, hslash, hhead, hw⟩ := eq_split p
  rw [← pathNames_append_slashes (Path.split p).1 hw, ← hhead]
  conv_lhs => rw [hp]
  rcases hslash with rfl | hslash
  · rfl
  · obtain ⟨q, rfl⟩ := Path.endsInSlash_eq_true_iff.1 hslash
    rw [List.append_assoc, List.singleton_append, pathNames_append_slash, pathNames_append_slash,
      show pathNames [] = [] from rfl, List.append_nil]

theorem pathNames_eq_append_fileName {p : Text} (h : Path.fileName p ≠ []) :
    pathNames p = pathNames (Path.parent p) ++ [Path.fileName p] := by
  obtain ⟨-, -, -, hslash, -⟩ := eq_split p
  have hlast : pathNames (Path.fileName p) = [Path.fileName p] := pathNames_eq_singleton h hslash
  rw [← hlast]
  exact pathNames_split p

theorem split_fst_isPrefix (p : Text) : (Path.split p).1 <+: p := by
  obtain ⟨head, w, hp, -, -, hhead, -⟩ := eq_split p
  exact ⟨w ++ (Path.split p).2, by rw [← List.append_assoc, ← hhead, ← hp]⟩

theorem isAbsolute_of_isPrefix {p q : Text} (h : p <+: q) (hp : p ≠ []) :
    Path.isAbsolute p = Path.isAbsolute q := by
  obtain ⟨c, p, rfl⟩ := List.exists_cons_of_ne_nil hp
  obtain ⟨r, rfl⟩ := h
  rfl

theorem isAbsolute_parent {p : Text} (h : Path.isAbsolute p = true) : Path.isAbsolute (Path.parent p) = true :=
  (isAbsolute_of_isPrefix (split_fst_isPrefix p) (split_fst_ne_nil h)).trans h

theorem byteSize_le_of_isPrefix {p q : Text} (h : p <+: q) : p.byteSize ≤ q.byteSize := by
  obtain ⟨r, rfl⟩ := h
  induction p with
  | nil => exact Nat.zero_le _
  | cons c p ih => exact Nat.add_le_add_left ih _

end Rehome.FileSystem
