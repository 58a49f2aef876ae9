import Rehome.Proofs.FileSystem.Confined

/-! Ways that last while directories on them are removed and made. They are traced without a look at
whether the directories are there. -/

namespace Rehome.FileSystem

open Rehome.Path (IsPlain)

variable {fs fs₀ : FileSystem} {dir p q r r' D S : Location} {n : Text} {x : Node}
  {names rest : List Text} {via via' : List Location}

/-- From `dir` the names go to `p`, by way of the links at `via`. Whatever else stands at a name or is
missing there is taken for a directory. -/
inductive Traces (fs : FileSystem) : Location → List Text → List Location → Location → Prop where
  | nil (dir : Location) : Traces fs dir [] [] dir
  | here {dir p : Location} {rest : List Text} {via : List Location}
      (h : Traces fs dir rest via p) : Traces fs dir (Path.here :: rest) via p
  | up {dir p : Location} {rest : List Text} {via : List Location}
      (h : Traces fs dir.tail rest via p) : Traces fs dir (Path.up :: rest) via p
  | down {dir p : Location} {n : Text} {rest : List Text} {via : List Location}
      (hhere : n ≠ Path.here) (hup : n ≠ Path.up)
      (hno : ∀ target, fs.lookup (n :: dir) ≠ some (.link target))
      (h : Traces fs (n :: dir) rest via p) : Traces fs dir (n :: rest) via p
  | link {dir p : Location} {n target : Text} {rest : List Text} {via : List Location}
      (hhere : n ≠ Path.here) (hup : n ≠ Path.up)
      (hlink : fs.lookup (n :: dir) = some (.link target))
      (h : Traces fs (startOf dir target) (pathNames target ++ rest) via p) :
      Traces fs dir (n :: rest) ((n :: dir) :: via) p

theorem Leads.traces (h : fs.Leads dir names via p) : fs.Traces dir names via p := by
  induction h with
  | nil dir => exact .nil dir
  | here _ ih => exact .here ih
  | up _ ih => exact .up ih
  | down hhere hup _ hdir _ ih => exact .down hhere hup (by simp [hdir]) ih
  | link hhere hup _ hlink _ ih => exact .link hhere hup hlink ih

theorem Traces.deterministic (h : fs.Traces dir names via p) (h' : fs.Traces dir names via' q) :
    via = via' ∧ p = q := by
  induction h generalizing via' with
  | nil => cases h'; exact ⟨rfl, rfl⟩
  | here _ ih =>
    cases h' with
    | here h' => exact ih h'
    | down hhere => exact absurd rfl hhere
    | link hhere => exact absurd rfl hhere
  | up _ ih =>
    cases h' with
    | up h' => exact ih h'
    | down _ hup => exact absurd rfl hup
    | link _ hup => exact absurd rfl hup
  | down hhere hup hno _ ih =>
    cases h' with
    | here => exact absurd rfl hhere
    | up => exact absurd rfl hup
    | down _ _ _ h' => exact ih h'
    | link _ _ hlink => exact absurd hlink (hno _)
  | link hhere hup hlink _ ih =>
    cases h' with
    | here => exact absurd rfl hhere
    | up => exact absurd rfl hup
    | down _ _ hno => exact absurd hlink (hno _)
    | link _ _ hlink' h' =>
      rw [hlink] at hlink'
      cases hlink'
      obtain ⟨rfl, rfl⟩ := ih h'
      exact ⟨rfl, rfl⟩

theorem Traces.append (h : fs.Traces dir names via p) (h' : fs.Traces p rest via' q) :
    fs.Traces dir (names ++ rest) (via ++ via') q := by
  induction h with
  | nil => exact h'
  | here _ ih => exact .here (ih h')
  | up _ ih => exact .up (ih h')
  | down hhere hup hno _ ih => exact .down hhere hup hno (ih h')
  | link hhere hup hlink _ ih => exact .link hhere hup hlink (List.append_assoc .. ▸ ih h')

/-- What is traced has a proper name. -/
theorem Traces.isPlain (h : fs.Traces dir names via p) (hdir : ∀ n ∈ dir, Path.IsPlain n)
    (hnames : ∀ n ∈ names, n ≠ [] ∧ '/' ∉ n) : ∀ n ∈ p, Path.IsPlain n := by
  induction h with
  | nil => exact hdir
  | here _ ih => exact ih hdir fun n hn => hnames n (List.mem_cons_of_mem _ hn)
  | up _ ih =>
    exact ih (fun n hn => hdir n (List.mem_of_mem_tail hn))
      fun n hn => hnames n (List.mem_cons_of_mem _ hn)
  | down hhere hup _ _ ih =>
    obtain ⟨hne, hslash⟩ := hnames _ List.mem_cons_self
    exact ih (List.forall_mem_cons.2 ⟨⟨hne, hhere, hup, hslash⟩, hdir⟩)
      fun n hn => hnames n (List.mem_cons_of_mem _ hn)
  | link _ _ _ _ ih =>
    refine ih ?_ fun n hn => ?_
    · unfold startOf
      split
      · simp
      · exact hdir
    · rcases List.mem_append.1 hn with hn | hn
      · exact mem_pathNames hn
      · exact hnames n (List.mem_cons_of_mem _ hn)

/-- Plain names are traced straight down where nothing on the way is a link. -/
theorem traces_straight (hplain : ∀ n ∈ names, IsPlain n)
    (hno : ∀ q, dir <:+ q → q ≠ dir → q <:+ names.reverse ++ dir → ∀ t, fs.lookup q ≠ some (.link t)) :
    fs.Traces dir names [] (names.reverse ++ dir) := by
  induction names generalizing dir with
  | nil => exact .nil dir
  | cons n rest ih =>
    have hn := hplain n List.mem_cons_self
    rw [List.reverse_cons, List.append_assoc, List.singleton_append] at hno ⊢
    refine .down hn.ne_here hn.ne_up (hno _ (List.suffix_cons n dir) (List.cons_ne_self n dir)
      (List.suffix_append ..)) (ih (fun k hk => hplain k (List.mem_cons_of_mem _ hk)) ?_)
    intro q hq _ hqD
    refine hno q ((List.suffix_cons n dir).trans hq) (fun he => ?_) hqD
    rw [he] at hq
    exact absurd hq.length_le (by simp)

theorem Site.traces (h : fs.Site dir names D) : ∃ via, fs.Traces dir names via D := by
  obtain ⟨init, rest, via, p, rfl, hv, rfl, hplain, hnone⟩ := h
  refine ⟨via ++ [], hv.traces.append (traces_straight hplain fun q hp hne hq t => ?_)⟩
  simp [Site.lookup_eq_none_of_missing hnone hp hne hq]

/-- `q` is the location `p` as a program knows it that was there when directories were lost on the way. -/
inductive Faded (lost : Location → Prop) : Location → Location → Prop where
  | refl (p : Location) : Faded lost p p
  | gone {n : Text} {p q : Location} (hlost : lost (n :: p)) (h : Faded lost p q) :
      Faded lost (n :: p) ([] :: q)

theorem faded_withoutGone {lost : Location → Prop} (cwd : Location)
    (h : ∀ p, p <:+ cwd → fs.lookup p ≠ some .directory → lost p) :
    Faded lost cwd (fs.withoutGone cwd) := by
  induction cwd with
  | nil => exact .refl _
  | cons n p ih =>
    by_cases hdir : fs.lookup (n :: p) = some .directory
    · rw [withoutGone_eq_self hdir]
      exact .refl _
    · rw [withoutGone, if_neg hdir]
      exact .gone (h _ List.suffix_rfl hdir) (ih fun q hq => h q (hq.trans (List.suffix_cons n p)))

theorem withoutGone_congr {fs' : FileSystem}
    (h : ∀ q, q <:+ p → (fs'.lookup q = some .directory ↔ fs.lookup q = some .directory)) :
    fs'.withoutGone p = fs.withoutGone p := by
  induction p with
  | nil => rfl
  | cons n p ih =>
    rw [withoutGone, withoutGone, ih fun q hq => h q (hq.trans (List.suffix_cons n p))]
    simp only [h _ List.suffix_rfl]

namespace Faded

variable {lost : Location → Prop}

theorem tail (h : Faded lost p q) : Faded lost p.tail q.tail := by
  cases h with
  | refl => exact .refl _
  | gone _ h => exact h

/-- Nothing stands below what is gone. -/
theorem eq_of_lookup_cons (h : Faded lost p q) (hq : fs.lookup (n :: q) = some x) : p = q := by
  cases h with
  | refl => rfl
  | gone => exact absurd rfl (isName_of_lookup (lookup_parent hq) [] List.mem_cons_self).1

theorem eq_of_not_lost (h : Faded lost p q) (hp : ¬ lost p) : p = q := by
  cases h with
  | refl => rfl
  | gone hlost => exact absurd hlost hp

end Faded

/-- Where names lead once some of the directories on the way are gone, they lead as long as these are there. -/
theorem Leads.traces_of_faded {lost : Location → Prop} (h : fs.Leads q names via r') (hext : fs.Extends fs₀)
    (hpq : Faded lost p q) : ∃ r, fs₀.Traces p names via r ∧ Faded lost r r' := by
  induction h generalizing p with
  | nil => exact ⟨p, .nil p, hpq⟩
  | here _ ih =>
    obtain ⟨r, ht, hr⟩ := ih hpq
    exact ⟨r, .here ht, hr⟩
  | up _ ih =>
    obtain ⟨r, ht, hr⟩ := ih hpq.tail
    exact ⟨r, .up ht, hr⟩
  | down hhere hup _ hdir _ ih =>
    obtain rfl := hpq.eq_of_lookup_cons hdir
    obtain ⟨r, ht, hr⟩ := ih (.refl _)
    exact ⟨r, .down hhere hup (by simp [hext _ _ hdir]) ht, hr⟩
  | link hhere hup _ hlink _ ih =>
    obtain rfl := hpq.eq_of_lookup_cons hlink
    obtain ⟨r, ht, hr⟩ := ih (.refl _)
    exact ⟨r, .link hhere hup (hext _ _ hlink) ht, hr⟩

namespace Elsewhere

/-- A way that was traced by no link inside the site still goes where it went. -/
theorem faded_of_leads {lost : Location → Prop} (helse : Elsewhere fs₀ D fs)
    (h : fs.Leads q names via' r') (ht : fs₀.Traces p names via r) (hvia : ∀ l ∈ via, ¬ D <:+ l)
    (hpq : Faded lost p q) : Faded lost r r' := by
  induction h generalizing p via with
  | nil =>
    cases ht
    exact hpq
  | here _ ih =>
    cases ht with
    | here ht => exact ih ht hvia hpq
    | down hhere => exact absurd rfl hhere
    | link hhere => exact absurd rfl hhere
  | up _ ih =>
    cases ht with
    | up ht => exact ih ht hvia hpq.tail
    | down _ hup => exact absurd rfl hup
    | link _ hup => exact absurd rfl hup
  | down hhere hup _ hdir _ ih =>
    obtain rfl := hpq.eq_of_lookup_cons hdir
    cases ht with
    | here => exact absurd rfl hhere
    | up => exact absurd rfl hup
    | down _ _ _ ht => exact ih ht hvia (.refl _)
    | link _ _ hlink =>
      have hl := (Outside.link_iff helse.outside (hvia _ List.mem_cons_self)).2 hlink
      rw [hdir] at hl
      cases hl
  | link hhere hup _ hlink _ ih =>
    obtain rfl := hpq.eq_of_lookup_cons hlink
    have hout : ¬ D <:+ _ := fun hD => helse.linkFree _ _ hD hlink
    have hlink₀ := (Outside.link_iff helse.outside hout).1 hlink
    cases ht with
    | here => exact absurd rfl hhere
    | up => exact absurd rfl hup
    | down _ _ hno => exact absurd hlink₀ (hno _)
    | link _ _ hl ht =>
      rw [hlink₀] at hl
      cases hl
      exact ih ht (fun l hl => hvia l (List.mem_cons_of_mem _ hl)) (.refl _)

end Elsewhere

end Rehome.FileSystem
