import Rehome.Proofs.FileSystem.Leads
import Rehome.Proofs.Path.Descent

/-! The site of a path is the place where it leads, or will lead once the directories that are missing
at its end are made. -/

namespace Rehome.FileSystem

open Rehome.Path (IsPlain StaysWithin)

variable {fs : FileSystem} {dir p q D : Location} {n : Text} {x : Node} {names init rest : List Text}
  {via via' : List Location}

/-- From `dir` the names lead to `D`, apart from plain names at their end, the first of which is
missing. -/
def Site (fs : FileSystem) (dir : Location) (names : List Text) (D : Location) : Prop :=
  ∃ init rest via p, names = init ++ rest ∧ fs.Leads dir init via p ∧ D = rest.reverse ++ p ∧
    (∀ n ∈ rest, IsPlain n) ∧ ∀ n ∈ rest.head?, fs.lookup (n :: p) = none

theorem Leads.site (h : fs.Leads dir names via D) : fs.Site dir names D :=
  ⟨names, [], via, D, (List.append_nil _).symm, h, rfl, by simp, by simp⟩

/-- No names lead through a name that is missing. -/
theorem Leads.ne_none (h : fs.Leads dir (n :: rest) via p) (hn : IsPlain n) :
    fs.lookup (n :: dir) ≠ none := by
  cases h with
  | here => exact absurd rfl hn.ne_here
  | up => exact absurd rfl hn.ne_up
  | down _ _ _ hdir => simp [hdir]
  | link _ _ _ hlink => simp [hlink]

/-- Names that lead somewhere do not reach beyond a missing one. -/
theorem Leads.append_eq_append {tail : List Text} (h : fs.Leads dir names via p)
    (h' : fs.Leads dir init via' q) (hall : names ++ tail = init ++ rest)
    (hplain : ∀ n ∈ rest, IsPlain n) (hnone : ∀ n ∈ rest.head?, fs.lookup (n :: q) = none) :
    ∃ m, init = names ++ m ∧ tail = m ++ rest := by
  rcases List.append_eq_append_iff.1 hall with ⟨m, hinit, htail⟩ | ⟨m, hnames, hrest⟩
  · exact ⟨m, hinit, htail⟩
  · cases m with
    | nil => exact ⟨[], by simpa using hnames.symm, by simpa using hrest.symm⟩
    | cons n m =>
      rw [hnames] at h
      obtain ⟨q', v₁, v₂, rfl, h₁, h₂⟩ := h.split
      obtain ⟨rfl, rfl⟩ := h₁.deterministic h'
      rw [hrest] at hplain hnone
      exact absurd (hnone n rfl) (h₂.ne_none (hplain n List.mem_cons_self))

/-- Filling a place where neither a directory nor a link stands changes no way. -/
theorem Leads.put (h : fs.Leads dir names via q) (hfree : ∀ y, fs.lookup (n :: p) = some y → ∃ c, y = .file c) :
    (fs.put p n x).Leads dir names via q := by
  refine h.mono fun r y hy hfile => ?_
  have hne : r ≠ n :: p := by
    rintro rfl
    obtain ⟨c, rfl⟩ := hfree y hy
    exact hfile c rfl
  rw [lookup_put_of_ne hne, hy]

namespace Site

/-- Where the first name that is missing is one of plain names, all of them have a site. -/
theorem of_none {pre : List Text} (hv : fs.Leads dir pre via p) (hpre : pre ++ [n] <+: names)
    (hplain : ∀ k ∈ names, IsPlain k) (hnone : fs.lookup (n :: p) = none) :
    ∃ D, fs.Site dir names D ∧ fs.lookup D = none := by
  obtain ⟨tail, rfl⟩ := hpre
  refine ⟨(n :: tail).reverse ++ p, ⟨pre, n :: tail, via, p, by simp, hv, rfl,
    fun k hk => hplain k ?_, ?_⟩, ?_⟩
  · rw [List.append_assoc]
    exact List.mem_append_right _ hk
  · rintro k ⟨⟩
    exact hnone
  · by_cases ht : tail = []
    · simpa [ht] using hnone
    · have hmiss : fs.lookup (n :: p) ≠ some .directory := by simp [hnone]
      exact lookup_eq_none_of_suffix hmiss (by simp) (by simpa using ht)

theorem unique (h : fs.Site dir names D) {D' : Location} (h' : fs.Site dir names D') : D = D' := by
  obtain ⟨init, rest, via, p, rfl, hv, rfl, hplain, hnone⟩ := h
  obtain ⟨init', rest', via', p', hall, hv', rfl, hplain', hnone'⟩ := h'
  obtain ⟨m, rfl, rfl⟩ := hv.append_eq_append hv' hall hplain' hnone'
  obtain ⟨m', hm', -⟩ := hv'.append_eq_append hv hall.symm hplain hnone
  obtain rfl : m = [] := by
    have := congrArg List.length hm'
    simp only [List.length_append] at this
    exact List.length_eq_zero_iff.1 (by omega)
  rw [List.append_nil] at hv'
  rw [(hv.deterministic hv').2, List.nil_append]

theorem congr {fs' : FileSystem} (h : fs.Site dir names D) (hsame : ∀ q, fs'.lookup q = fs.lookup q) :
    fs'.Site dir names D := by
  obtain ⟨init, rest, via, p, rfl, hv, rfl, hplain, hnone⟩ := h
  refine ⟨init, rest, via, p, rfl, hv.mono fun q x hq _ => (hsame q).trans hq, rfl, hplain, ?_⟩
  intro n hn
  exact (hsame _).trans (hnone n hn)

theorem leads (h : fs.Site dir names D) (hD : fs.lookup D ≠ none) :
    ∃ via, fs.Leads dir names via D := by
  obtain ⟨init, rest, via, p, rfl, hv, rfl, -, hnone⟩ := h
  cases rest with
  | nil => exact ⟨via, by simpa using hv⟩
  | cons n rest =>
    have hs : n :: p <:+ (n :: rest).reverse ++ p := by simp
    obtain ⟨x, hx⟩ := Option.ne_none_iff_exists'.1 hD
    by_cases he : n :: p = (n :: rest).reverse ++ p
    · exact absurd (he ▸ hnone n rfl) hD
    · exact absurd ((lookup_of_suffix hx hs he).symm.trans (hnone n rfl)) (by simp)

/-- Making the first missing directory on the way leaves the site where it is. -/
theorem put_directory {pre : List Text} (h : fs.Site dir names D) (hv : fs.Leads dir pre via p)
    (hpre : pre ++ [n] <+: names) (hn : IsPlain n) (hsize : n.byteSize ≤ maxNameBytes)
    (hnone : fs.lookup (n :: p) = none) :
    (fs.put p n .directory).Site dir names D ∧ n :: p <:+ D := by
  obtain ⟨init, rest, via', p', rfl, hv', rfl, hplain, hnone'⟩ := h
  obtain ⟨tail, htail⟩ := hpre
  obtain ⟨m, hinit, hm⟩ := hv.append_eq_append hv' (by simpa using htail) hplain hnone'
  have hm' : m = [] := by
    cases m with
    | nil => rfl
    | cons k m =>
      obtain ⟨rfl, -⟩ := List.cons.inj hm
      obtain ⟨q, v₁, v₂, -, h₁, h₂⟩ := (hinit ▸ hv').split
      obtain ⟨rfl, rfl⟩ := h₁.deterministic hv
      exact absurd hnone (h₂.ne_none hn)
  subst hm'
  rw [List.append_nil] at hinit
  obtain rfl : rest = n :: tail := hm.symm
  subst hinit
  obtain ⟨rfl, rfl⟩ := hv'.deterministic hv
  refine ⟨?_, by simp⟩
  by_cases hroom : fs.HasRoom p' n
  · have hfree : ∀ y, fs.lookup (n :: p') = some y → ∃ c, y = .file c := by simp [hnone]
    refine ⟨init ++ [n], tail, via' ++ [], n :: p', by simp, (hv'.put hfree).append
      (.down hn.ne_here hn.ne_up hsize (lookup_put_self hroom) (.nil _)), by simp,
      fun k hk => hplain k (List.mem_cons_of_mem _ hk), fun k _ => ?_⟩
    rw [lookup_put_of_ne (by simp)]
    exact lookup_eq_none_of_suffix (by simp [hnone]) (List.suffix_cons _ _) (by simp)
  · rw [put_of_not_hasRoom hroom]
    exact ⟨init, n :: tail, via', p', rfl, hv', rfl, hplain, hnone'⟩

theorem put_inside (h : fs.Site dir names D) (hp : D <:+ p) (hdir : fs.lookup p = some .directory)
    (hfree : ∀ y, fs.lookup (n :: p) = some y → ∃ c, y = .file c) :
    (fs.put p n x).Site dir names D := by
  have hD : fs.lookup D ≠ none := by simp [lookup_directory_of_suffix hdir hp]
  obtain ⟨via, hv⟩ := h.leads hD
  exact (hv.put hfree).site

/-- Where the first of the names is missing, nothing is on the way along them. -/
theorem lookup_eq_none_of_missing (hnone : ∀ n ∈ rest.head?, fs.lookup (n :: p) = none) (hp : p <:+ q)
    (hne : q ≠ p) (hq : q <:+ rest.reverse ++ p) : fs.lookup q = none := by
  obtain ⟨e, rfl⟩ := hp
  rw [List.suffix_append_self_iff] at hq
  obtain ⟨k, hk⟩ := hq
  rcases List.eq_nil_or_concat e with rfl | ⟨e, n, rfl⟩
  · exact absurd rfl hne
  have hfirst : n ∈ rest.head? := by
    rw [← List.getLast?_reverse, ← hk]
    simp
  rw [List.concat_eq_append, List.append_assoc, List.singleton_append]
  by_cases he : e = []
  · rw [he]
    exact hnone n hfirst
  · refine lookup_eq_none_of_suffix (by simp [hnone n hfirst]) (List.suffix_append ..) fun heq => he ?_
    exact List.self_eq_append_left.1 heq

/-- On the way to a site everything is a directory or missing. -/
theorem on_way (h : fs.Site [] names D) (hq : q <:+ D) :
    fs.lookup q = none ∨ fs.lookup q = some .directory := by
  obtain ⟨init, rest, via, p, rfl, hv, rfl, -, hnone⟩ := h
  have hp : fs.lookup p = some .directory := hv.lookup_eq rfl
  by_cases hqp : q <:+ p
  · exact .inr (lookup_directory_of_suffix hp hqp)
  · have hpq := (List.suffix_or_suffix_of_suffix hq (List.suffix_append ..)).resolve_left hqp
    exact .inl (lookup_eq_none_of_missing hnone hpq (fun he => hqp (he ▸ List.suffix_rfl)) hq)

/-- Plain names have their site straight below where everything on the way is a directory or missing. -/
theorem of_way (hplain : ∀ n ∈ names, IsPlain n ∧ n.byteSize ≤ maxNameBytes)
    (hway : ∀ q, q <:+ names.reverse ++ dir → fs.lookup q = none ∨ fs.lookup q = some .directory) :
    fs.Site dir names (names.reverse ++ dir) := by
  induction names generalizing dir with
  | nil => exact (Leads.nil dir).site
  | cons n rest ih =>
    obtain ⟨hn, hsize⟩ := hplain n List.mem_cons_self
    have hrest : ∀ k ∈ rest, IsPlain k ∧ k.byteSize ≤ maxNameBytes := fun k hk =>
      hplain k (List.mem_cons_of_mem _ hk)
    rw [List.reverse_cons, List.append_assoc, List.singleton_append] at hway ⊢
    rcases hway (n :: dir) (List.suffix_append ..) with hnone | hdir
    · refine ⟨[], n :: rest, [], dir, rfl, .nil dir, by simp, fun k hk => (hplain k hk).1, ?_⟩
      rintro k ⟨⟩
      exact hnone
    · obtain ⟨init, tail, via, p, rfl, hv, hD, htail, hnone⟩ := ih hrest hway
      exact ⟨n :: init, tail, via, p, rfl, .down hn.ne_here hn.ne_up hsize hdir hv, hD, htail, hnone⟩

theorem append (h : fs.Leads dir names via p) (h' : fs.Site p rest D) :
    fs.Site dir (names ++ rest) D := by
  obtain ⟨init, tail, via', p', rfl, hv, rfl, htail, hnone⟩ := h'
  exact ⟨names ++ init, tail, via ++ via', p', by simp, h.append hv, rfl, htail, hnone⟩

end Site

/-! ### Staying inside -/

/-- Nothing inside `D` is a link. -/
def LinkFree (fs : FileSystem) (D : Location) : Prop :=
  ∀ q t, D <:+ q → fs.lookup q ≠ some (.link t)

/-- Names that stay within what lies above `D` lead where they spell, as long as no link is inside. -/
theorem Leads.eq_resolveStack {d : Location} (hfree : fs.LinkFree D)
    (h : fs.Leads (d ++ D) names via p) (hd : ∀ n ∈ d, IsPlain n)
    (hn : ∀ n ∈ names, n ≠ [] ∧ '/' ∉ n) (hstay : StaysWithin d.length names) :
    p = Path.resolveStack true d names ++ D := by
  generalize hdir : d ++ D = dir at h
  induction h generalizing d with
  | nil => exact hdir.symm
  | here _ ih =>
    rw [Path.resolveStack_cons, Path.push_here]
    exact ih hd (fun m hm => hn m (List.mem_cons_of_mem _ hm))
      (hstay.of_cons_skipped (by decide) (by decide)) hdir
  | up _ ih =>
    obtain ⟨k, hk, hstay⟩ := hstay.of_cons_up
    cases d with
    | nil => cases hk
    | cons m d =>
      obtain rfl : d.length = k := by simpa using hk
      rw [Path.resolveStack_cons, Path.push_up_cons _ _ (hd m List.mem_cons_self).ne_up]
      exact ih (fun m hm => hd m (List.mem_cons_of_mem _ hm))
        (fun m hm => hn m (List.mem_cons_of_mem _ hm)) hstay (by rw [← hdir]; rfl)
  | @down dir _ n _ _ hhere hup _ _ _ ih =>
    have hplain : IsPlain n :=
      ⟨(hn n List.mem_cons_self).1, hhere, hup, (hn n List.mem_cons_self).2⟩
    rw [Path.resolveStack_cons, Path.push_plain _ _ hplain]
    exact @ih (n :: d) (List.forall_mem_cons.2 ⟨hplain, hd⟩)
      (fun m hm => hn m (List.mem_cons_of_mem _ hm)) (hstay.of_cons_plain hplain) (by rw [← hdir]; rfl)
  | @link dir _ n target _ _ _ _ _ hlink _ _ =>
    refine absurd hlink (hfree _ _ ?_)
    exact ⟨n :: d, by rw [← hdir]; rfl⟩

/-- Plain names lead straight down where there are no links. -/
theorem Leads.eq_of_plain (hfree : fs.LinkFree D) (h : fs.Leads dir names via p) (hdir : D <:+ dir)
    (hplain : ∀ n ∈ names, IsPlain n) : p = names.reverse ++ dir := by
  induction h with
  | nil => rfl
  | here => exact absurd rfl (hplain _ List.mem_cons_self).ne_here
  | up => exact absurd rfl (hplain _ List.mem_cons_self).ne_up
  | @down dir _ n _ _ _ _ _ _ _ ih =>
    rw [ih (hdir.trans (List.suffix_cons n dir)) fun k hk => hplain k (List.mem_cons_of_mem _ hk)]
    simp
  | @link dir _ n target _ _ _ _ _ hlink =>
    exact absurd hlink (hfree _ _ (hdir.trans (List.suffix_cons n dir)))

end Rehome.FileSystem
