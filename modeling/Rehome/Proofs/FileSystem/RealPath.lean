import Rehome.FileSystem.RealPath
import Rehome.Proofs.FileSystem.Traces

/-! Real paths are those of the places where paths lead, as long as no link on the way is so far away
that it cannot be looked at. -/

namespace Rehome.FileSystem

variable {fs : FileSystem} {cwd : Location} {t q q' link : Trail} {s target : Text}
  {segs rest : List Text} {via via' via₁ via₂ active : List Location} {seen seen' : Seen}

/-- From the end of the way `t` the segments lead to that of the way `q`, by way of the links at `via`,
which can all be looked at. -/
inductive Spells (fs : FileSystem) (cwd : Location) :
    Trail → List Text → List Location → Trail → Prop where
  | nil (t : Trail) : Spells fs cwd t [] [] t
  | skip {t q : Trail} {s : Text} {rest : List Text} {via : List Location}
      (hs : s = [] ∨ s = Path.here) (h : Spells fs cwd t rest via q) :
      Spells fs cwd t (s :: rest) via q
  | up {t q : Trail} {rest : List Text} {via : List Location}
      (h : Spells fs cwd t.up rest via q) : Spells fs cwd t (Path.up :: rest) via q
  | down {t q : Trail} {s : Text} {rest : List Text} {via : List Location} (hs : IsName s)
      (hno : ∀ target, fs.lookup ((t.down s).location cwd) ≠ some (.link target))
      (h : Spells fs cwd (t.down s) rest via q) : Spells fs cwd t (s :: rest) via q
  | link {t q q' : Trail} {s target : Text} {rest : List Text} {via via' : List Location}
      (hs : IsName s) (hsize : (t.down s).path.byteSize ≤ maxPathBytes)
      (hlink : fs.lookup ((t.down s).location cwd) = some (.link target))
      (h : Spells fs cwd (t.start target) (Path.segments target) via q)
      (h' : Spells fs cwd q rest via' q') :
      Spells fs cwd t (s :: rest) ((t.down s).location cwd :: (via ++ via')) q'

theorem location_start (t : Trail) (path : Text) :
    (t.start path).location cwd = startOf (t.location cwd) path := by
  unfold Trail.start startOf
  split <;> rfl

theorem Spells.traces (h : Spells fs cwd t segs via q) :
    fs.Traces (t.location cwd) (segs.filter (· ≠ [])) via (q.location cwd) := by
  induction h with
  | nil => exact .nil _
  | skip hs _ ih =>
    rcases hs with rfl | rfl
    · exact ih
    · exact .here ih
  | up _ ih =>
    rw [Trail.location_up] at ih
    exact .up ih
  | down hs hno _ ih =>
    rw [Trail.location_down] at hno ih
    rw [List.filter_cons_of_pos (by simpa using hs.1)]
    exact .down hs.2.1 hs.2.2.1 hno ih
  | link hs _ hlink _ _ ih ih' =>
    rw [location_start] at ih
    rw [Trail.location_down] at hlink ⊢
    rw [List.filter_cons_of_pos (by simpa using hs.1)]
    exact .link hs.2.1 hs.2.2.1 hlink (ih.append ih')

theorem Spells.deterministic (h : Spells fs cwd t segs via q) (h' : Spells fs cwd t segs via' q') :
    via = via' ∧ q = q' := by
  induction h generalizing via' q' with
  | nil => cases h'; exact ⟨rfl, rfl⟩
  | skip hs _ ih =>
    cases h' with
    | skip _ h' => exact ih h'
    | up => rcases hs with h | h <;> cases h
    | down hs' => exact absurd hs (not_or.2 ⟨hs'.1, hs'.2.1⟩)
    | link hs' => exact absurd hs (not_or.2 ⟨hs'.1, hs'.2.1⟩)
  | up _ ih =>
    cases h' with
    | skip hs => rcases hs with h | h <;> cases h
    | up h' => exact ih h'
    | down hs' => exact absurd rfl hs'.2.2.1
    | link hs' => exact absurd rfl hs'.2.2.1
  | down hs hno _ ih =>
    cases h' with
    | skip hs' => exact absurd hs' (not_or.2 ⟨hs.1, hs.2.1⟩)
    | up => exact absurd rfl hs.2.2.1
    | down _ _ h' => exact ih h'
    | link _ _ hlink => exact absurd hlink (hno _)
  | link hs _ hlink _ _ ih ih' =>
    cases h' with
    | skip hs' => exact absurd hs' (not_or.2 ⟨hs.1, hs.2.1⟩)
    | up => exact absurd rfl hs.2.2.1
    | down _ hno => exact absurd hlink (hno _)
    | link _ _ hlink' h₁ h₂ =>
      rw [hlink] at hlink'
      cases hlink'
      obtain ⟨rfl, rfl⟩ := ih h₁
      obtain ⟨rfl, rfl⟩ := ih' h₂
      exact ⟨rfl, rfl⟩

/-- A way that is spelt is spelt in another file system, too, that is the same outside `D`, as long as it is
traced there by no link inside. -/
theorem Spells.transfer {fs' : FileSystem} {D r : Location} (hout : fs.Outside D fs')
    (h : Spells fs cwd t segs via q) (hvia : ∀ l ∈ via, ¬ D <:+ l) {rest : List Text}
    {via' : List Location}
    (ht : fs'.Traces (t.location cwd) (segs.filter (· ≠ []) ++ rest) via' r)
    (hvia' : ∀ l ∈ via', ¬ D <:+ l) :
    Spells fs' cwd t segs via q ∧
      ∃ via'', fs'.Traces (q.location cwd) rest via'' r ∧ ∀ l ∈ via'', ¬ D <:+ l := by
  induction h generalizing rest via' with
  | nil t => exact ⟨.nil t, via', ht, hvia'⟩
  | skip hs _ ih =>
    rcases hs with rfl | rfl
    · obtain ⟨h, hrest⟩ := ih hvia ht hvia'
      exact ⟨.skip (.inl rfl) h, hrest⟩
    · rw [List.filter_cons_of_pos (by decide), List.cons_append] at ht
      cases ht with
      | here ht =>
        obtain ⟨h, hrest⟩ := ih hvia ht hvia'
        exact ⟨.skip (.inr rfl) h, hrest⟩
      | down hhere => exact absurd rfl hhere
      | link hhere => exact absurd rfl hhere
  | up _ ih =>
    rw [List.filter_cons_of_pos (by decide), List.cons_append] at ht
    rw [Trail.location_up] at ih
    cases ht with
    | up ht =>
      obtain ⟨h, hrest⟩ := ih hvia ht hvia'
      exact ⟨.up h, hrest⟩
    | down _ hup => exact absurd rfl hup
    | link _ hup => exact absurd rfl hup
  | down hs hno _ ih =>
    rw [List.filter_cons_of_pos (by simpa using hs.1), List.cons_append] at ht
    rw [Trail.location_down] at hno ih
    cases ht with
    | here => exact absurd rfl hs.2.1
    | up => exact absurd rfl hs.2.2.1
    | down _ _ hno' ht =>
      obtain ⟨h, hrest⟩ := ih hvia ht hvia'
      exact ⟨.down hs (by rwa [Trail.location_down]) h, hrest⟩
    | link _ _ hl =>
      exact absurd ((hout.link_iff (hvia' _ List.mem_cons_self)).1 hl) (hno _)
  | link hs hsize hl _ _ ih ih' =>
    rw [List.filter_cons_of_pos (by simpa using hs.1), List.cons_append] at ht
    rw [Trail.location_down] at hl hvia
    rw [location_start] at ih
    have hl' := (hout.link_iff (hvia _ List.mem_cons_self)).2 hl
    cases ht with
    | here => exact absurd rfl hs.2.1
    | up => exact absurd rfl hs.2.2.1
    | down _ _ hno' => exact absurd hl' (hno' _)
    | link _ _ hl'' ht =>
      rw [hl'] at hl''
      cases hl''
      obtain ⟨h, via₂, ht, hvia₂⟩ := ih
        (fun l hl => hvia l (List.mem_cons_of_mem _ (List.mem_append_left _ hl))) ht
        (fun l hl => hvia' l (List.mem_cons_of_mem _ hl))
      obtain ⟨h', hrest⟩ := ih'
        (fun l hl => hvia l (List.mem_cons_of_mem _ (List.mem_append_right _ hl))) ht hvia₂
      rw [← Trail.location_down] at hl'
      exact ⟨.link hs hsize hl' h h', hrest⟩

/-! ### Links that are replaced -/

/-- The link at the end of the way leads to the end of the way `q`. -/
def Replaces (fs : FileSystem) (cwd : Location) (link : Trail) (via : List Location) (q : Trail) : Prop :=
  ∃ target, fs.lookup (link.location cwd) = some (.link target) ∧
    Spells fs cwd (link.up.start target) (Path.segments target) via q

theorem Replaces.deterministic (h : Replaces fs cwd link via q) (h' : Replaces fs cwd link via' q') :
    via = via' ∧ q = q' := by
  obtain ⟨target, hlink, h⟩ := h
  obtain ⟨target', hlink', h'⟩ := h'
  rw [hlink] at hlink'
  cases hlink'
  exact h.deterministic h'

/-- On whatever way a link is reached, it leads there by way of the same links. -/
theorem Replaces.via_eq {link' : Trail} (h : Replaces fs cwd link via q)
    (h' : Replaces fs cwd link' via' q') (hl : link.location cwd = link'.location cwd) : via = via' := by
  obtain ⟨target, hlink, h⟩ := h
  obtain ⟨target', hlink', h'⟩ := h'
  rw [hl, hlink'] at hlink
  cases hlink
  have ht := h.traces
  have ht' := h'.traces
  rw [location_start, Trail.location_up, hl] at ht
  rw [location_start, Trail.location_up] at ht'
  exact (ht.deterministic ht').1

/-- The links that are being replaced take at least `n` links each. -/
def Busy (fs : FileSystem) (cwd : Location) (active : List Location) (n : Nat) : Prop :=
  ∀ l ∈ active, ∃ link via q, link.location cwd = l ∧ Replaces fs cwd link via q ∧ n ≤ via.length

/-- No link is met while it is being replaced. -/
theorem Busy.not_mem {n : Nat} (h : Busy fs cwd active n) (hlink : Replaces fs cwd link via q)
    (hn : via.length < n) : link.location cwd ∉ active := by
  intro hl
  obtain ⟨link', via', q', hl', hr, hle⟩ := h _ hl
  rw [hlink.via_eq hr hl'.symm] at hn
  omega

theorem Busy.length_le {n : Nat} (h : Busy fs cwd active n) (hnodup : active.Nodup) :
    active.length ≤ fs.linkCount := by
  rw [linkCount, List.countP_eq_length_filter, ← List.length_map Prod.fst]
  refine hnodup.length_le_of_subset fun l hl => ?_
  obtain ⟨link, via, q, rfl, ⟨target, hlink, -⟩, -⟩ := h l hl
  have hne : link.location cwd ≠ [] := by
    intro hnil
    rw [hnil] at hlink
    cases hlink
  exact List.mem_map.2 ⟨_, List.mem_filter.2 ⟨(lookup_eq_some hne).1 hlink, rfl⟩, rfl⟩

theorem Busy.cons {n : Nat} (h : Busy fs cwd active n) (hlink : Replaces fs cwd link via q)
    (hn : via.length < n) : Busy fs cwd (link.location cwd :: active) via.length := by
  intro l hl
  rcases List.mem_cons.1 hl with rfl | hl
  · exact ⟨link, via, q, rfl, hlink, Nat.le_refl _⟩
  · obtain ⟨link', via', q', hl', hr, hle⟩ := h l hl
    exact ⟨link', via', q', hl', hr, by omega⟩

/-! ### What is seen -/

/-- Whatever is told of a link is right. Nothing is told of some that are being replaced. -/
structure Known (fs : FileSystem) (cwd : Location) (active : List Location) (seen : Seen) : Prop where
  replaced : ∀ link q, seen.find? link = some (some q) → ∃ via, Replaces fs cwd link via q
  pending : ∀ link, seen.find? link = some none → link.location cwd ∈ active

/-- More links may be seen now, and all of them are replaced. -/
structure Settles (fs : FileSystem) (cwd : Location) (seen seen' : Seen) : Prop where
  replaced : ∀ link q, seen'.find? link = some (some q) → ∃ via, Replaces fs cwd link via q
  pending : ∀ link, seen'.find? link = some none → seen.find? link = some none

theorem Known.settles (h : Known fs cwd active seen) : Settles fs cwd seen seen :=
  ⟨h.replaced, fun _ hl => hl⟩

theorem Known.of_settles (h : Known fs cwd active seen) (hs : Settles fs cwd seen seen') :
    Known fs cwd active seen' :=
  ⟨hs.replaced, fun l hl => h.pending l (hs.pending l hl)⟩

theorem Settles.trans {seen'' : Seen} (h : Settles fs cwd seen seen')
    (h' : Settles fs cwd seen' seen'') : Settles fs cwd seen seen'' :=
  ⟨h'.replaced, fun l hl => h.pending l (h'.pending l hl)⟩

theorem Seen.find?_cons (seen : Seen) (link l : Trail) (r : Option Trail) :
    Seen.find? ((link, r) :: seen) l = if link = l then some r else seen.find? l := by
  unfold Seen.find?
  rw [List.find?_cons]
  by_cases h : link = l <;> simp [h]

theorem Known.cons_none (h : Known fs cwd active seen) (link : Trail) :
    Known fs cwd (link.location cwd :: active) ((link, none) :: seen) := by
  refine ⟨fun l q hl => ?_, fun l hl => ?_⟩ <;> rw [Seen.find?_cons] at hl <;> split at hl
  · cases hl
  · exact h.replaced l q hl
  · next he => exact he ▸ List.mem_cons_self
  · exact List.mem_cons_of_mem _ (h.pending l hl)

theorem Settles.cons_some (h : Settles fs cwd ((link, none) :: seen) seen')
    (hlink : Replaces fs cwd link via q) : Settles fs cwd seen ((link, some q) :: seen') := by
  refine ⟨fun l q' hl => ?_, fun l hl => ?_⟩ <;> rw [Seen.find?_cons] at hl <;> split at hl
  · next he =>
    cases hl
    exact ⟨via, he ▸ hlink⟩
  · exact h.replaced l q' hl
  · cases hl
  · next hne =>
    have hl' := h.pending l hl
    rwa [Seen.find?_cons, if_neg hne] at hl'

/-! ### Real paths -/

theorem linkTarget?_eq_some {t : Trail} (hsize : t.path.byteSize ≤ maxPathBytes)
    (hlink : fs.lookup (t.location cwd) = some (.link target)) :
    fs.linkTarget? cwd t = some target := by
  rw [linkTarget?, if_neg (Nat.not_lt.2 hsize), hlink]

theorem linkTarget?_eq_none {t : Trail}
    (hno : ∀ target, fs.lookup (t.location cwd) ≠ some (.link target)) :
    fs.linkTarget? cwd t = none := by
  unfold linkTarget?
  split
  · rfl
  · split
    · next target hlink => exact absurd hlink (hno target)
    · rfl

/-- Links that take less than `n` links are replaced by where they lead. -/
def Follows (fs : FileSystem) (cwd : Location) (active : List Location) (n : Nat)
    (follow : Trail → Text → StateM Seen Reached) : Prop :=
  ∀ link target via q seen, Known fs cwd active seen → via.length < n →
    fs.lookup (link.location cwd) = some (.link target) →
    Spells fs cwd (link.up.start target) (Path.segments target) via q →
      (follow link target seen).1 = .all q ∧ Settles fs cwd seen (follow link target seen).2

theorem Seen.bind_apply {α β : Type} (x : StateM Seen α) (f : α → StateM Seen β) (seen : Seen) :
    (x >>= f) seen = f (x seen).1 (x seen).2 := rfl

theorem Seen.get_apply (seen : Seen) : (get : StateM Seen Seen) seen = (seen, seen) := rfl

theorem Seen.modify_apply (f : Seen → Seen) (seen : Seen) :
    (modify f : StateM Seen PUnit) seen = (⟨⟩, f seen) := rfl

theorem trace_of_spells {n : Nat} {follow : Trail → Text → StateM Seen Reached}
    (hfollow : Follows fs cwd active n follow) (h : Spells fs cwd t segs via q) (hn : via.length ≤ n)
    (hk : Known fs cwd active seen) :
    (fs.trace cwd follow t segs seen).1 = .all q ∧
      Settles fs cwd seen (fs.trace cwd follow t segs seen).2 := by
  induction h generalizing seen with
  | nil t => exact ⟨rfl, hk.settles⟩
  | skip hs _ ih =>
    rw [trace, if_pos hs]
    exact ih hn hk
  | up _ ih =>
    rw [trace, if_neg (by decide), if_pos rfl]
    exact ih hn hk
  | down hs hno _ ih =>
    rw [trace, if_neg (not_or.2 ⟨hs.1, hs.2.1⟩), if_neg hs.2.2.1, if_neg hs.2.2.2.2,
      linkTarget?_eq_none hno]
    exact ih hn hk
  | @link t q q' s target rest via via' hs hsize hlink h _ _ ih' =>
    rw [List.length_cons, List.length_append] at hn
    obtain ⟨hall, hsettles⟩ := hfollow (t.down s) target via q seen hk (by omega) hlink h
    rw [trace, if_neg (not_or.2 ⟨hs.1, hs.2.1⟩), if_neg hs.2.2.1, if_neg hs.2.2.2.2,
      linkTarget?_eq_some hsize hlink]
    dsimp only
    rw [Seen.bind_apply, hall]
    obtain ⟨hall', hsettles'⟩ := ih' (by omega) (hk.of_settles hsettles)
    exact ⟨hall', hsettles.trans hsettles'⟩

/-- A way is followed to its end by as many links inside each other as there are links that are not
being replaced yet. -/
theorem reach_of_spells {new n : Nat} (h : Spells fs cwd t segs via q)
    (hk : Known fs cwd active seen) (hnodup : active.Nodup) (hbusy : Busy fs cwd active n)
    (hn : via.length ≤ n) (hnew : fs.linkCount ≤ new + active.length) :
    (fs.reach cwd new t segs seen).1 = .all q ∧
      Settles fs cwd seen (fs.reach cwd new t segs seen).2 := by
  induction new generalizing t segs via q seen active n with
  | zero =>
    refine trace_of_spells (fun link target via₁ q₁ seen hk hlen hlink h₁ => ?_) h hn hk
    have hr : Replaces fs cwd link via₁ q₁ := ⟨target, hlink, h₁⟩
    have hle := (hbusy.cons hr hlen).length_le (List.nodup_cons.2 ⟨hbusy.not_mem hr hlen, hnodup⟩)
    rw [List.length_cons] at hle
    omega
  | succ new ih =>
    refine trace_of_spells (fun link target via₁ q₁ seen hk hlen hlink h₁ => ?_) h hn hk
    have hr : Replaces fs cwd link via₁ q₁ := ⟨target, hlink, h₁⟩
    have hout := hbusy.not_mem hr hlen
    rw [Seen.bind_apply, Seen.get_apply]
    dsimp only
    rcases hseen : seen.find? link with _ | _ | q₂ <;> dsimp only
    · rw [Seen.bind_apply, Seen.modify_apply, Seen.bind_apply]
      dsimp only
      obtain ⟨hall, hsettles⟩ := ih h₁ (hk.cons_none link) (List.nodup_cons.2 ⟨hout, hnodup⟩)
        (hbusy.cons hr hlen) (Nat.le_refl _) (by rw [List.length_cons]; omega)
      rw [hall]
      dsimp only
      exact ⟨rfl, hsettles.cons_some hr⟩
    · exact absurd (hk.pending link hseen) hout
    · obtain ⟨via₂, hr₂⟩ := hk.replaced link q₂ hseen
      obtain ⟨-, rfl⟩ := hr.deterministic hr₂
      exact ⟨rfl, hk.settles⟩

/-- The path leads to `S` by way of the links at `via`, none of which is too far away to be looked at. -/
def Spelt (fs : FileSystem) (cwd : Location) (path : Text) (via : List Location) (S : Location) : Prop :=
  ∃ t : Trail, t.location cwd = S ∧
    Spells fs cwd (Trail.workingDirectory.start path) (Path.segments path) via t

namespace Spelt

variable {path : Text} {S D : Location} (h : fs.Spelt cwd path via S)
include h

theorem traces : fs.Traces (startOf cwd path) (pathNames path) via S := by
  obtain ⟨t, rfl, h⟩ := h
  have ht := h.traces
  rwa [location_start] at ht

theorem eq_of_site (hsite : fs.Site (startOf cwd path) (pathNames path) D) : S = D := by
  obtain ⟨via', ht⟩ := hsite.traces
  exact (h.traces.deterministic ht).2

theorem eq_of_found (hfound : fs.find cwd .look path = .ok (.found D .directory)) : D = S := by
  obtain ⟨via', -, hv⟩ := leads_of_find hfound
  exact (hv.traces.deterministic h.traces).2

theorem isPlain (hcwd : Path.isAbsolute path = false → fs.lookup cwd = some .directory) :
    ∀ n ∈ S, Path.IsPlain n := by
  refine h.traces.isPlain ?_ fun n hn => mem_pathNames hn
  unfold startOf
  split
  · simp
  · next habs =>
    intro n hn
    obtain ⟨h₁, h₂, h₃, h₄, -⟩ := isName_of_lookup (hcwd (by simpa using habs)) n hn
    exact ⟨h₁, h₂, h₃, h₄⟩

/-- A path that is spelt is spelt in another file system, too, that is the same outside `D`, as long as it is
traced there by no link inside. -/
theorem transfer {fs' : FileSystem} {r : Location} (hout : fs.Outside D fs')
    (hvia : ∀ l ∈ via, ¬ D <:+ l) (ht : fs'.Traces (startOf cwd path) (pathNames path) via' r)
    (hvia' : ∀ l ∈ via', ¬ D <:+ l) : fs'.Spelt cwd path via S := by
  obtain ⟨t, hS, h⟩ := h
  have hstart : (Trail.workingDirectory.start path).location cwd = startOf cwd path := location_start _ _
  rw [pathNames, ← List.append_nil (List.filter _ _), ← hstart] at ht
  exact ⟨t, hS, (h.transfer hout hvia ht hvia').1⟩

/-- The real path of a path is that of the place where it leads. -/
theorem realPath?_eq : fs.realPath? cwd path = some S.path := by
  obtain ⟨t, rfl, h⟩ := h
  have hk : Known fs cwd [] [] := ⟨fun _ _ hl => (by cases hl), fun _ hl => (by cases hl)⟩
  have hnew : fs.linkCount ≤ fs.wayCount + ([] : List Location).length := by
    rw [wayCount, List.length_nil, Nat.add_zero]
    exact Nat.le_mul_of_pos_right _ (Nat.succ_pos _)
  have hbusy : Busy fs cwd [] via.length := fun _ hl => absurd hl List.not_mem_nil
  rw [realPath?, (reach_of_spells h hk List.nodup_nil hbusy (Nat.le_refl _) hnew).1]

end Spelt

/-! ### Paths without a real one -/

theorem lookup_of_linkTarget? (h : fs.linkTarget? cwd t = some target) :
    fs.lookup (t.location cwd) = some (.link target) := by
  unfold linkTarget? at h
  split at h
  · cases h
  · split at h
    · next hl =>
      cases h
      exact hl
    · cases h

theorem trace_ne_nul {follow : Trail → Text → StateM Seen Reached} (hlinks : fs.ProperLinks)
    (hfollow : ∀ link target seen, '\x00' ∉ target → (follow link target seen).1 ≠ .nul)
    (hsegs : ∀ s ∈ segs, '\x00' ∉ s) : (fs.trace cwd follow t segs seen).1 ≠ .nul := by
  induction segs generalizing t seen with
  | nil => exact fun h => by cases h
  | cons s rest ih =>
    obtain ⟨hs, hrest⟩ := List.forall_mem_cons.1 hsegs
    unfold trace
    split
    · exact ih hrest
    split
    · exact ih hrest
    cases htarget : fs.linkTarget? cwd (t.down s) with
    | none => exact ih hrest
    | some target =>
      have htarget' := hlinks _ target (lookup_of_linkTarget? htarget)
      dsimp only
      rw [Seen.bind_apply]
      rcases hr : (follow (t.down s) target seen).1 with q | path | _ <;> dsimp only
      · exact ih hrest
      · exact fun h => by cases h
      · exact absurd hr (hfollow _ _ _ htarget')

theorem reach_ne_nul {new : Nat} (hlinks : fs.ProperLinks) (hsegs : ∀ s ∈ segs, '\x00' ∉ s) :
    (fs.reach cwd new t segs seen).1 ≠ .nul := by
  induction new generalizing t segs seen with
  | zero =>
    apply trace_ne_nul hlinks _ hsegs
    intro link target seen _ h
    cases h
  | succ new ih =>
    apply trace_ne_nul hlinks _ hsegs
    intro link target seen htarget
    rw [Seen.bind_apply, Seen.get_apply]
    dsimp only
    rcases seen.find? link with _ | _ | q <;> dsimp only
    · rw [Seen.bind_apply, Seen.modify_apply, Seen.bind_apply]
      dsimp only
      have hsegs' : ∀ s ∈ Path.segments target, '\x00' ∉ s := fun s hs hc =>
        htarget (Path.mem_of_mem_segments hs hc)
      have hreach := @ih (link.up.start target) (Path.segments target) ((link, none) :: seen) hsegs'
      rcases hr : (fs.reach cwd new (link.up.start target) (Path.segments target)
        ((link, none) :: seen)).1 with q | path | _
      · exact fun h => by cases h
      · exact fun h => by cases h
      · exact absurd hr hreach
    · exact fun h => by cases h
    · exact fun h => by cases h

/-- Only a NUL keeps a path from having a real one. -/
theorem realPath?_ne_none {path : Text} (hlinks : fs.ProperLinks) (hpath : '\x00' ∉ path) :
    fs.realPath? cwd path ≠ none := by
  have hsegs : ∀ s ∈ Path.segments path, '\x00' ∉ s := fun s hs hc =>
    hpath (Path.mem_of_mem_segments hs hc)
  have hreach : (fs.reach cwd fs.wayCount (Trail.workingDirectory.start path) (Path.segments path) []).1 ≠
      .nul := reach_ne_nul hlinks hsegs
  unfold realPath?
  dsimp only
  split
  · simp
  · simp
  · next h => exact absurd h hreach

end Rehome.FileSystem
