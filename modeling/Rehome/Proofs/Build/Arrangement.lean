import Rehome.Proofs.Build.Timing

/-! Packages whose copies are laid out, one package after the other. In whichever order the packages come,
each of them is built as it would be in any other, and nothing is missing or left over in the end. -/

namespace Rehome.Build

variable {s u v : Host} {base : Text} {D : Location} {F : FileSystem} {cs cs' done new : List Copy}
  {p : Package} {workers : Int}

/-! ### Keys -/

/-- Entries are added as long as all keys are different. -/
theorem perform_addEntries {es more : List Manifest.Entry} (h : ((es ++ more).map (·.key)).Nodup) :
    u.perform (addEntries es more) = (.ok (es ++ more), u) := by
  induction more generalizing es with
  | nil => rw [addEntries, List.append_nil, Host.perform_pure]
  | cons e more ih =>
    have hnew : e.key ∉ es.map (·.key) := by
      intro hmem
      rw [List.map_append, List.nodup_append] at h
      exact h.2.2 _ hmem _ (List.mem_map_of_mem List.mem_cons_self) rfl
    rw [List.append_cons] at h ⊢
    rw [addEntries, if_neg hnew, ih h]

/-! ### One copy after the other -/

theorem Amid.log (h : Amid s D cs F u) (l : List LogLine) : Amid s D cs F { u with log := l } :=
  ⟨h.cwd_eq, h.above, h.below, h.changed⟩

/-- Wherever the package `p` is built on the way from `s` to `F`, it has the copies `new`. -/
structure Offers (s : Host) (D : Location) (cs : List Copy) (F : FileSystem) (workers : Int) (p : Package)
    (new : List Copy) : Prop where
  package : ∀ c ∈ new, c.package = p
  scan : ∀ u, Amid s D cs F u → u.perform (scan p.sourceDir) = (.ok (new.map Copy.rel), u)
  workers : 1 ≤ workers

namespace Layout

theorem perm (h : Layout s base D cs F) (hperm : cs.Perm cs') : Layout s base D cs' F where
  outlines := h.outlines
  nodup := (hperm.map _).nodup_iff.1 h.nodup
  plain := fun c hc => h.plain c (hperm.mem_iff.2 hc)
  source := by
    intro c hc
    obtain ⟨hnul, q, hq, hsource⟩ := h.source c (hperm.mem_iff.2 hc)
    exact ⟨hnul, q, fun hmem => hq ((hperm.map _).mem_iff.2 hmem), hsource⟩
  lays := fun c hc => h.lays c (hperm.mem_iff.2 hc)
  slot := fun c hc => h.slot c (hperm.mem_iff.2 hc)
  file := fun c hc => h.file c (hperm.mem_iff.2 hc)
  changed := h.changed.mono (hperm.map _).subset
  least := fun fs hs hfs hall => h.least fs hs hfs fun c hc => hall c (hperm.mem_iff.1 hc)

variable (h : Layout s base D cs F)
include h

/-- Wherever it is built on the way, and in whatever order the single calls come, a package has its copies. -/
theorem buildPackage_course {r : Except Fault (List Manifest.Entry)} (hu : Partly s base D cs F done u)
    (hp : Offers s D cs F workers p new) (hnew : new ⊆ cs) (hnodup : (done ++ new).Nodup)
    (hcourse : Concurrent.buildPackage base workers p u r v) :
    r = .ok (new.map Copy.entry) ∧ Partly s base D cs F (done ++ new) v := by
  obtain ⟨r', hpool, rfl⟩ := Concurrent.of_buildPackage (hp.scan u hu.amid) hp.workers hcourse
  have hlog : Partly s base D cs F done (announced u p (new.map Copy.rel)) :=
    ⟨hu.amid.log _, hu.mem, hu.stands⟩
  rw [map_prepare hp.package] at hpool
  obtain ⟨⟨ds, rfl, hds⟩, hv⟩ := h.pool_partly hlog hnew hnodup hpool
  exact ⟨congrArg Except.ok hds, hv⟩

/-- Packages are built in the order of the list, whichever it is. -/
theorem buildPackages_course {ps : List Package} {copies : List (List Copy)}
    {r : Except Fault (List Manifest.Entry)} (hu : Partly s base D cs F done u)
    (hps : List.Forall₂ (Offers s D cs F workers) ps copies) (hcopies : copies.flatten ⊆ cs)
    (hkeys : (((done ++ copies.flatten).map Copy.entry).map (·.key)).Nodup)
    (hcourse : (ps.foldlM (fun es p => do addEntries es (← Concurrent.buildPackage base workers p))
      (done.map Copy.entry) : Course (List Manifest.Entry)) u r v) :
    r = .ok ((done ++ copies.flatten).map Copy.entry) ∧ Partly s base D cs F (done ++ copies.flatten) v := by
  induction hps generalizing done u with
  | nil =>
    obtain ⟨rfl, rfl⟩ := hcourse
    rw [List.flatten_nil, List.append_nil]
    exact ⟨rfl, hu⟩
  | @cons p new ps copies hp _ ih =>
    rw [List.flatten_cons, ← List.append_assoc] at hkeys ⊢
    obtain ⟨hnew, hcopies⟩ := List.append_subset.1 hcopies
    have hadd : (((done ++ new).map Copy.entry).map (·.key)).Nodup := by
      rw [List.map_append, List.map_append] at hkeys
      exact (List.nodup_append.1 hkeys).1
    have hstep : ∀ r w, (do addEntries (done.map Copy.entry) (← Concurrent.buildPackage base workers p) :
        Course (List Manifest.Entry)) u r w → r = .ok ((done ++ new).map Copy.entry) ∧
          Partly s base D cs F (done ++ new) w := by
      intro r w hr
      obtain ⟨x, hx, hentries⟩ := Course.bind_of_ok
        (fun r x hbuild => h.buildPackage_course hu hp hnew hadd.of_map.of_map hbuild) hr
      have hentries : x.perform (addEntries (done.map Copy.entry) (new.map Copy.entry)) = (r, w) := hentries
      rw [List.map_append] at hadd
      rw [perform_addEntries hadd, ← List.map_append] at hentries
      cases hentries
      exact ⟨rfl, hx⟩
    rw [List.foldlM_cons] at hcourse
    obtain ⟨w, hw, hrest⟩ := Course.bind_of_ok hstep hcourse
    exact ih hw hcopies hkeys hrest

end Layout

end Rehome.Build
