import Rehome.Proofs.Build.Layout
import Rehome.Proofs.Build.Repetition

/-! Copies that are made among others, of which nothing is known but that all of them end well. What each of
them does to a host, whatever the others do meanwhile, is enough for all of them to be a layout of what they
leave. -/

namespace Rehome

open FileSystem (pathNames startOf ChangedAt Confined)
open Rehome.Path (IsPlain)

namespace FileSystem

variable {fs : FileSystem} {cwd q : Location} {head path : Text}

/-- A path that leads to a directory goes along directories. -/
theorem find_directory_of_isPrefix (h : fs.find cwd .look path = .ok (.found q .directory))
    (hpre : head <+: path) (hne : head ≠ []) (hnames : pathNames head <+: pathNames path) :
    ∃ d, fs.find cwd .look head = .ok (.found d .directory) := by
  obtain ⟨-, hsize, via, hlen, hv⟩ := find_look_directory_iff.1 h
  obtain ⟨rest, hrest⟩ := hnames
  rw [← hrest] at hv
  obtain ⟨d, v₁, v₂, rfl, h₁, -⟩ := hv.split
  have hstart : startOf cwd head = startOf cwd path := by
    unfold startOf
    rw [isAbsolute_of_isPrefix hpre hne]
  rw [List.length_append] at hlen
  exact ⟨d, find_look_directory_iff.2
    ⟨hne, (byteSize_le_of_isPrefix hpre).trans hsize, v₁, by omega, hstart ▸ h₁⟩⟩

end FileSystem

namespace Build

variable {s t u v : Host} {base path q : Text} {D d : Location} {n : Text} {c : Copy} {cs done new : List Copy}

/-! ### Making directories, whatever comes of it -/

section Steps

variable {I : Host → Prop} {R G : Host → Host → Prop} (hstill : ∀ u, G u u)
include hstill

theorem makeLeaf_steps (hmake : ∀ u, I u → I (u.answer (.makeDirectory path)).2 ∧
      G u (u.answer (.makeDirectory path)).2) :
    (makeLeaf path).Withstands I R G (fun _ _ => True) s := by
  apply Action.Withstands.tryCatch (S := fun _ _ => True)
  · intro u _ hI
    obtain ⟨hI', hG⟩ := hmake u hI
    exact ⟨hI', hG, trivial⟩
  · exact fun _ _ _ => trivial
  · intro f t _
    cases f with
    | system e p =>
      intro u _ hI
      refine ⟨hI, hstill u, ?_⟩
      show ((if u.files.isDirectory u.cwd path = true then pure () else _ : Action Unit)).Withstands I R G _ u
      split <;> trivial
    | _ => trivial

/-- Making directories does what is done by making a directory at each head of the path. -/
theorem makeDirectories_steps {path : Text} {s : Host}
    (hmake : ∀ q, q ≠ [] → q <+: path → pathNames q <+: pathNames path →
      ∀ u, I u → I (u.answer (.makeDirectory q)).2 ∧ G u (u.answer (.makeDirectory q)).2) :
    (makeDirectories path).Withstands I R G (fun _ _ => True) s := by
  have hleaf : ∀ s, (makeLeaf path).Withstands I R G (fun _ _ => True) s := by
    intro s
    apply makeLeaf_steps hstill
    intro u hI
    by_cases hnil : path = []
    · rw [hnil, Host.answer_makeDirectory_nil]
      exact ⟨hI, hstill u⟩
    · exact hmake path hnil List.prefix_rfl List.prefix_rfl u hI
  unfold makeDirectories
  dsimp only
  split
  · next hstep =>
    have hlen := length_lastStep_lt hstep.2
    intro u _ hI
    refine ⟨hI, hstill u, ?_⟩
    show ((if u.files.exists u.cwd (lastStep path).1 = true then makeLeaf path else do
      unlessThere (makeDirectories (lastStep path).1)
      if (lastStep path).2 = Path.here then pure () else makeLeaf path : Action Unit)).Withstands I R G _ u
    split
    · exact hleaf u
    apply Action.Withstands.bind (Q := fun _ _ => True)
    · have hhead : (makeDirectories (lastStep path).1).Withstands I R G (fun _ _ => True) u :=
        makeDirectories_steps fun q hne hpre hnames => hmake q hne (hpre.trans (lastStep_fst_isPrefix path))
          (hnames.trans (pathNames_lastStep_isPrefix path))
      apply hhead.tryCatch
      · exact fun _ _ _ => trivial
      · intro f t _
        split <;> trivial
    · intro _ t _
      split
      · trivial
      · exact hleaf t
    · exact fun _ _ _ => trivial
  · exact hleaf s
termination_by path.length

end Steps

/-! ### One copy -/

/-- The host `u` may be left by a build from `s`, once its destination was clean, which left `t`. -/
structure Ongoing (s t : Host) (base : Text) (D : Location) (u : Host) : Prop where
  cwd_eq : u.cwd = t.cwd
  above : t.files.Outlines u.files
  confined : Confined s.files base D u.files

theorem Emptied.ongoing (h : Emptied s base D t) : Ongoing s t base D t := ⟨rfl, .refl _, h.stage.confined⟩

theorem Ongoing.since (h : Ongoing s t base D u) (ht : Since s D t) : Since s D u :=
  ⟨h.confined.toElsewhere, h.cwd_eq ▸ ht.faded⟩

theorem Ongoing.log (h : Ongoing s t base D u) (l : List LogLine) : Ongoing s t base D { u with log := l } :=
  ⟨h.cwd_eq, h.above, h.confined⟩

namespace Copy

/-- The file that is copied stands below the source of its package, apart from the destination. If it holds a
text at all, that is the one that is copied. -/
def Drawn (s t : Host) (D : Location) (c : Copy) : Prop :=
  ∃ S a, Apart s D c.package.sourceDir S ∧
    t.files.find t.cwd .look c.package.sourceDir = .ok (.found S .directory) ∧
    s.files.lookup (c.names.reverse ++ S) = some (.file a) ∧ ∀ text, a = .text text → c.text = text

/-- What a copy that is under way relies on: others leave all that stands, and a text that is at its place. -/
def Trusts (D : Location) (c : Copy) (u v : Host) : Prop := FileSystem.Spares (c.place D) u.files v.files

/-- What a copy that is under way does: it fills its place, and makes no directory that is not needed for the
copy to stand there. -/
structure Does (cwd : Location) (base : Text) (D : Location) (c : Copy) (u v : Host) : Prop where
  outlines : u.files.Outlines v.files
  changed : ChangedAt [c.place D] u.files v.files
  least : ∀ fs F, u.files.Outlines fs → fs.Outlines F → v.files.Outlines F → c.Stands cwd base D fs →
    v.files.Outlines fs

/-- The copy was made. The file that it was made of could be read from the start, and its place could be opened. -/
structure Made (t : Host) (base : Text) (D : Location) (c : Copy) (v : Host) : Prop where
  nul : '\x00' ∉ c.source
  readable : ∃ q, ¬ D <:+ q ∧ t.files.Readable t.cwd c.source q c.text
  slot : ∃ d n, c.place D = n :: d ∧ Slot t.cwd v.files (c.path base) d n
  file : v.files.lookup (c.place D) = some (.file (.text c.output.text))

theorem Does.refl (cwd : Location) (base : Text) (D : Location) (c : Copy) (u : Host) : c.Does cwd base D u u :=
  ⟨.refl _, .refl _ _, fun _ _ hu _ _ _ => hu⟩

theorem Does.trusts {c' : Copy} {cwd : Location} (h : c.Does cwd base D u v)
    (hne : c'.place D ≠ c.place D) : c'.Trusts D u v :=
  ⟨h.outlines, fun _ ha => h.changed.lookup_eq (by simpa using hne) ha⟩

theorem Made.trusts (h : c.Made t base D u) (hR : c.Trusts D u v) : c.Made t base D v := by
  obtain ⟨d, n, hplace, hslot⟩ := h.slot
  exact ⟨h.nul, h.readable, ⟨d, n, hplace, hslot.outlines hR.1⟩, hR.2 _ h.file⟩

theorem place_ne (c : Copy) : c.place D ≠ D := by
  intro he
  have hnil := List.append_left_eq_self.1 he
  rw [List.reverse_eq_nil_iff] at hnil
  exact List.append_ne_nil_of_left_ne_nil (Path.segments_ne_nil _) _ hnil

/-- The place of a copy is inside. -/
theorem place_inside (hplace : c.place D = n :: d) : D <:+ d := by
  have hD : D <:+ n :: d := hplace ▸ List.suffix_append ..
  rcases List.suffix_cons_iff.1 hD with he | hD
  · exact absurd (hplace.trans he.symm) c.place_ne
  · exact hD

end Copy

namespace Ongoing

variable (h : Ongoing s t base D u)
include h

/-- A directory is made on the way to a copy. -/
theorem makeDirectory {ns : List Text} (hpath : Below base (c.path base) ns) (hne : q ≠ [])
    (hpre : q <+: Path.parent (c.path base)) (hnames : pathNames q <+: pathNames (Path.parent (c.path base))) :
    Ongoing s t base D (u.answer (.makeDirectory q)).2 ∧
      c.Does t.cwd base D u (u.answer (.makeDirectory q)).2 := by
  have hconf := Host.confined_makeDirectory h.confined (hpath.along.head
    (hpre.trans (FileSystem.split_fst_isPrefix _)) (hnames.trans (pathNames_split_fst_isPrefix _)) hne)
  rcases u.answer_makeDirectory q with ⟨e, he⟩ | ⟨d, n, hnul, hf, he⟩
  · rw [he]
    exact ⟨h, .refl ..⟩
  rw [he] at hconf ⊢
  obtain ⟨-, -, hn, -, hnone, -, init, via, hinit, -⟩ := FileSystem.find_nameEntry_absent_iff.1 hf
  have hname : IsName n := Host.isName_of_mem_pathNames hn.ne_here hn.ne_up (by simp [hinit]) hnul
  have hleaf : u.files.Leaf u.cwd q (u.files.put d n .directory) := .made hf hname
  have hput : u.files.Outlines (u.files.put d n .directory) := .of_extends hleaf.extends
  refine ⟨⟨h.cwd_eq, h.above.trans hput, hconf⟩, hput, .put_directory hnone, fun fs F hu hfs hF hstands => ?_⟩
  obtain ⟨e, he⟩ := hstands.parent
  obtain ⟨r, hr⟩ := FileSystem.find_directory_of_isPrefix he hpre hne hnames
  rw [← h.cwd_eq] at hr
  exact hleaf.least hu hfs hF hr

/-- The place of a copy is filled. -/
theorem putFile (hplace : c.place D = n :: d)
    (hfree : u.files.lookup (n :: d) = none ∨ ∃ b, u.files.lookup (n :: d) = some (.file b)) (a : Content) :
    Ongoing s t base D { u with files := u.files.putFile (n :: d) a } ∧
      c.Does t.cwd base D u { u with files := u.files.putFile (n :: d) a } := by
  have hput : u.files.Outlines (u.files.putFile (n :: d) a) := .putFile hfree
  refine ⟨⟨h.cwd_eq, h.above.trans hput, h.confined.put_inside (Copy.place_inside hplace) (by simp)⟩, hput,
    .put (by simp [hplace]), fun fs F hu _ _ hstands => ?_⟩
  have hfile := hstands.file
  rw [hplace] at hfile
  exact hu.put_left hfile (.file _ _)

/-- What can be read of a file below a source was there from the start. -/
theorem readable (ht : Since s D t) (hc : c.Plain) (hdrawn : c.Drawn s t D) {text : Text}
    (hread : u.files.read u.cwd c.source = .ok (.text text)) :
    text = c.text ∧ ∃ q, ¬ D <:+ q ∧ t.files.Readable t.cwd c.source q c.text := by
  obtain ⟨S, a, hS, hfound, hfile, htext⟩ := hdrawn
  have hin : S <:+ c.names.reverse ++ S := List.suffix_append ..
  have hthere := (ht.lookup_eq hS hin).trans hfile
  have hstill := ((h.since ht).lookup_eq hS hin).trans hfile
  rw [h.cwd_eq] at hread
  have hreadable := FileSystem.readable_of_read hfound hc.names hc.ne_nil hthere h.above hstill hread
  have ha := hreadable.file
  rw [hthere] at ha
  cases ha
  obtain rfl := htext text rfl
  refine ⟨rfl, _, fun hD => ?_, hreadable⟩
  rcases List.suffix_or_suffix_of_suffix hD hin with hs | hs
  · exact hS.above hs
  · exact hS.below hs

/-- Where the copy is opened, its place is emptied. -/
theorem create (hc : c.Plain) (habs : Path.isAbsolute base = true) {p : Location}
    (hcreate : u.answer (.create (c.path base)) = (.ok p, v)) :
    p = c.place D ∧ Ongoing s t base D v ∧ c.Does t.cwd base D u v ∧
      ∃ d n, c.place D = n :: d ∧ Slot t.cwd v.files (c.path base) d n := by
  -- The directory of the copy is there, so the base leads to its site.
  have hfield : Field u.cwd base D u.files := by
    obtain ⟨D', via, hv⟩ := hc.leads_of_create hcreate
    have hsite := hv.site
    rw [FileSystem.startOf_of_isAbsolute habs] at hsite
    obtain rfl := h.confined.site.unique hsite
    exact ⟨⟨via, hv⟩, h.confined.linkFree⟩
  obtain ⟨d, n, hplace, rfl, hroom, -, hslot⟩ := hc.create_at (.refl _) hfield hcreate
  obtain ⟨hfree, rfl⟩ := Host.lookup_of_create hcreate
  obtain ⟨hv, hdoes⟩ := h.putFile hplace hfree (.text [])
  refine ⟨hplace.symm, hv, hdoes, d, n, hplace, ?_⟩
  rw [← h.cwd_eq]
  exact hslot _ hdoes.outlines ⟨_, FileSystem.lookup_put_self hroom⟩

end Ongoing

section Copy

variable (habs : Path.isAbsolute base = true) (hc : c.Plain)
include habs hc

/-- The text of a copy is written among others. If that ends well, it is at the place of the copy. -/
theorem Copy.writeText_does :
    (writeText (c.path base) c.output.text).Withstands (Ongoing s t base D) (c.Trusts D) (c.Does t.cwd base D)
      (fun r v => r = .ok () → (∃ d n, c.place D = n :: d ∧ Slot t.cwd v.files (c.path base) d n) ∧
        v.files.lookup (c.place D) = some (.file (.text c.output.text))) u := by
  have hstill := Copy.Does.refl t.cwd base D c
  obtain ⟨hpath, -⟩ := below_plain habs hc.home hc.ne_nil hc.names
  apply Action.Withstands.bind (Q := fun _ _ => True)
  · exact makeDirectories_steps hstill fun q hne hpre hnames u hI => hI.makeDirectory hpath hne hpre hnames
  · intro _ x _
    apply Action.Withstands.bind (Q := fun r v => ∀ p, r = .ok p → p = c.place D ∧
      ∃ d n, c.place D = n :: d ∧ Slot t.cwd v.files (c.path base) d n)
    · intro y _ hI
      rcases hcreate : y.answer (.create (c.path base)) with ⟨e | p, z⟩
      · rcases y.answer_create (c.path base) with ⟨e', he⟩ | ⟨p, -, -, he⟩ <;> rw [hcreate] at he <;> cases he
        refine ⟨hI, hstill y, ?_⟩
        rintro p ⟨⟩
      · obtain ⟨rfl, hI', hdoes, hslot⟩ := hI.create hc habs hcreate
        refine ⟨hI', hdoes, ?_⟩
        rintro _ ⟨⟩
        exact ⟨rfl, hslot⟩
    · intro p y hp
      obtain ⟨rfl, d, n, hplace, hslot⟩ := hp p rfl
      intro z hR hI
      have hslot := hslot.outlines hR.1
      obtain ⟨hI', hdoes⟩ := hI.putFile hplace (.inr hslot.file) (.text c.output.text)
      obtain ⟨-, hroom⟩ := hslot.hasRoom (.refl _) hslot.parent
      rw [hplace]
      exact ⟨hI', hdoes, fun _ => ⟨⟨d, n, rfl, hslot.outlines hdoes.outlines⟩, FileSystem.lookup_put_self hroom⟩⟩
    · rintro e y - ⟨⟩
  · rintro e x - ⟨⟩

/-- A copy that is made among others does only what a copy does, and it was made if it ends well. -/
theorem Copy.prepare_does (ht : Since s D t) (hdrawn : c.Drawn s t D) :
    (prepare c.package base c.rel).Withstands (Ongoing s t base D) (c.Trusts D) (c.Does t.cwd base D)
      (fun r v => ∀ e, r = .ok e → Manifest.entry e.home e.relPath = c.entry ∧ c.Made t base D v) u := by
  have hstill := Copy.Does.refl t.cwd base D c
  apply Action.Withstands.bind (Q := fun r _ => ∀ text, r = .ok text → text = c.text ∧ '\x00' ∉ c.source ∧
    ∃ q, ¬ D <:+ q ∧ t.files.Readable t.cwd c.source q c.text)
  · intro x _ hI
    have hsame : (x.answer (.read c.source)).2 = x := x.answer_read_host c.source
    refine ⟨hsame.symm ▸ hI, hsame.symm ▸ hstill x, fun text htext => ?_⟩
    obtain ⟨-, hnul, hread⟩ := Host.perform_read_ok_iff.1 (Prod.ext htext hsame)
    obtain ⟨htext, hreadable⟩ := hI.readable ht hc hdrawn hread
    exact ⟨htext, hnul, hreadable⟩
  · intro text x hr
    obtain ⟨rfl, hnul, hreadable⟩ := hr text rfl
    apply (Copy.writeText_does habs hc).bind
    · rintro ⟨⟩ y hy
      obtain ⟨hslot, hfile⟩ := hy rfl
      intro z hR hI
      refine ⟨hI.log _, ⟨.refl _, .refl _ _, fun _ _ hz _ _ _ => hz⟩, ?_⟩
      rintro _ ⟨⟩
      refine ⟨?_, (Copy.Made.mk hnul hreadable hslot hfile).trusts hR⟩
      show Manifest.entry c.package.home c.rel.slashed = c.entry
      rw [Copy.rel, slashed_ofSegments hc.noBackslash]
      rfl
    · rintro e y - _ ⟨⟩
  · rintro e x - _ ⟨⟩

end Copy

/-! ### Copies that are made at the same time -/

/-- From `t` to `u` the places of `cs` were filled at most, no directories were made but for these, and the
copies in `done` were made. -/
structure Spread (t : Host) (base : Text) (D : Location) (cs done : List Copy) (u : Host) : Prop where
  changed : ChangedAt (cs.map (Copy.place D)) t.files u.files
  least : ∀ fs F, t.files.Outlines fs → fs.Outlines F → u.files.Outlines F →
    (∀ c ∈ cs, c.Stands t.cwd base D fs) → u.files.Outlines fs
  made : ∀ c ∈ done, c.Made t base D u

namespace Spread

theorem nil (t : Host) (base : Text) (D : Location) : Spread t base D [] [] t :=
  ⟨.refl _ _, fun _ _ ht _ _ _ => ht, by simp⟩

variable (h : Spread t base D cs done u)
include h

theorem mono {cs' : List Copy} (hcs : cs ⊆ cs') : Spread t base D cs' done u :=
  ⟨h.changed.mono (List.map_subset _ hcs),
    fun fs F ht hfs hF hall => h.least fs F ht hfs hF fun c hc => hall c (hcs hc), h.made⟩

theorem log {l : List LogLine} : Spread t base D cs done { u with log := l } :=
  ⟨h.changed, h.least, fun c hc => (h.made c hc).trusts ⟨.refl _, fun _ ha => ha⟩⟩

/-- What one more copy does leaves those that were made before. -/
theorem does (hdoes : c.Does t.cwd base D u v) (hc : c ∈ cs)
    (hfresh : ∀ c' ∈ done, c'.place D ≠ c.place D) : Spread t base D cs done v := by
  refine ⟨h.changed.trans (hdoes.changed.mono ?_), fun fs F ht hfs hF hall => ?_, fun c' hc' => ?_⟩
  · exact List.cons_subset.2 ⟨List.mem_map_of_mem hc, List.nil_subset _⟩
  · exact hdoes.least fs F (h.least fs F ht hfs (hdoes.outlines.trans hF) hall) hfs hF (hall c hc)
  · exact (h.made c' hc').trusts (hdoes.trusts (hfresh c' hc'))

end Spread

/-- Copies that were made at the same time, and all ended well, were all made. -/
theorem pool_spreads {ds : List Declaration} (ht : Since s D t)
    (habs : Path.isAbsolute base = true) (hplain : ∀ c ∈ new, c.Plain) (hdrawn : ∀ c ∈ new, c.Drawn s t D)
    (hnodup : (new.map (Copy.place D)).Nodup) (hu : Ongoing s t base D u)
    (hpool : Course.pool (new.map fun c => prepare c.package base c.rel) u (.ok ds) v) :
    Ongoing s t base D v ∧ ds.map (fun d => Manifest.entry d.home d.relPath) = new.map Copy.entry ∧
      ∀ done, (∀ c ∈ done, ∀ c' ∈ new, c.place D ≠ c'.place D) → Spread t base D done done u →
        Spread t base D (done ++ new) (done ++ new) v := by
  let Q : Copy → Except Fault Declaration → Host → Prop := fun c r v =>
    ∀ e, r = .ok e → Manifest.entry e.home e.relPath = c.entry ∧ c.Made t base D v
  have hstable : ∀ c r u v, Q c r u → c.Trusts D u v → Q c r v := fun _ _ _ _ hQ hR e he =>
    ⟨(hQ e he).1, (hQ e he).2.trusts hR⟩
  have hxs : List.Forall₂ (fun (c : Copy) x => Action.Withstands (Ongoing s t base D) (c.Trusts D)
      (c.Does t.cwd base D) (Q c) x u) new (new.map fun c => prepare c.package base c.rel) := by
    rw [List.forall₂_map_right_iff, List.forall₂_same]
    intro c hc
    exact Copy.prepare_does habs (hplain c hc) ht (hdrawn c hc)
  have hcompatible : Compatible (Copy.Trusts D) (Copy.Does t.cwd base D) new := by
    refine ⟨fun _ _ => .refl _ _, fun _ _ _ _ hR hR' => hR.trans hR', ?_⟩
    exact (List.pairwise_map.1 hnodup).imp fun hne _ _ => ⟨fun hG => hG.trusts hne.symm, fun hG => hG.trusts hne⟩
  have hrun : ∀ P : Host → Prop, (∀ c ∈ new, ∀ u v, c.Does t.cwd base D u v → P u → P v) → P u →
      Ongoing s t base D v ∧ P v ∧ ds.map (fun d => Manifest.entry d.home d.relPath) = new.map Copy.entry ∧
        ∀ c ∈ new, c.Made t base D v := by
    intro P hP hu'
    obtain ⟨hv, hP', ps, hyield, hall⟩ := Course.pool_withstands hpool hcompatible hstable hxs hu hP hu'
    exact ⟨hv, hP', map_entry_eq ((hyield.forall₂ hall).imp fun _ e hQ => hQ e rfl)⟩
  obtain ⟨hv, -, hentries, -⟩ := hrun (fun _ => True) (fun _ _ _ _ _ _ => trivial) trivial
  refine ⟨hv, hentries, fun done hfresh hspread => ?_⟩
  obtain ⟨-, hdone, -, hmade⟩ := hrun (Spread t base D (done ++ new) done)
    (fun c hc u v hdoes hold => hold.does hdoes (List.mem_append_right _ hc) fun c' hc' => hfresh c' hc' c hc)
    (hspread.mono (List.subset_append_left ..))
  exact { hdone with made := List.forall_mem_append.2 ⟨hdone.made, hmade⟩ }

section Layout

variable (hfree : ∀ c ∈ cs, t.files.lookup (c.place D) = none) (hsite : t.files.Site [] (pathNames base) D)
  (habs : Path.isAbsolute base = true) (h : Spread t base D cs cs u) (hplain : ∀ c ∈ cs, c.Plain)
include hfree h

/-- What was there before the copies came still stands, since their places were free. -/
theorem Spread.extends : t.files.Extends u.files := by
  intro q x hq
  refine h.changed.lookup_eq (fun hmem => ?_) hq
  obtain ⟨c, hc, rfl⟩ := List.mem_map.1 hmem
  rw [hfree c hc] at hq
  cases hq

include hsite habs hplain

/-- The directories of each copy could have been made first. -/
theorem Spread.lays : ∀ c ∈ cs, Lays t.cwd t.files u.files (Path.parent (c.path base)) := by
  intro c hc
  obtain ⟨hpath, hnames⟩ := below_plain habs (hplain c hc).home (hplain c hc).ne_nil (hplain c hc).names
  obtain ⟨d, n, hplace, hslot⟩ := (h.made c hc).slot
  obtain ⟨m, rfl⟩ := Copy.place_inside hplace
  have hsegs : Path.segments c.package.home ++ c.names = m.reverse ++ [n] := by
    have hrev : (Path.segments c.package.home ++ c.names).reverse = n :: m := List.append_cancel_right hplace
    rw [← List.reverse_reverse (_ ++ _), hrev, List.reverse_cons]
  have habs' : Path.isAbsolute (Path.parent (c.path base)) = true := FileSystem.isAbsolute_parent hpath.isAbsolute
  have hcwd : ∀ (fs : FileSystem), fs.find t.cwd .look (Path.parent (c.path base)) =
      fs.find [] .look (Path.parent (c.path base)) := fun fs => by
    simp [FileSystem.find, habs']
  have hfound := hslot.parent
  rw [hcwd, ← List.reverse_reverse m] at hfound
  obtain ⟨rest, p, hatt, hp⟩ := attainable_parent hpath
    (fun k hk => hnames k (hsegs ▸ List.mem_append_left _ hk)) hsegs hslot.nul hslot.names habs' hsite
    (h.extends hfree) hfound
  obtain ⟨w, hmake, hw, -, hout, hfound'⟩ := makeDirectories_attained hatt
  exact ⟨t, w, rfl, rfl, hmake, hw, ⟨_, (hcwd _).trans hfound'⟩, .of_extends hout⟩

/-- Copies that were all made are a layout of what they left. -/
theorem Spread.layout (hu : Ongoing s t base D u) (hnodup : (cs.map (Copy.place D)).Nodup) :
    Layout t base D cs u.files where
  outlines := hu.above
  nodup := hnodup
  plain := hplain
  source := by
    intro c hc
    obtain ⟨hnul, ⟨q, hq, hreadable⟩, -, -⟩ := h.made c hc
    refine ⟨hnul, q, fun hmem => hq ?_, hreadable⟩
    obtain ⟨c', -, rfl⟩ := List.mem_map.1 hmem
    exact List.suffix_append ..
  lays := h.lays hfree hsite habs hplain
  slot := fun c hc => (h.made c hc).slot
  file := fun c hc => (h.made c hc).file
  changed := h.changed
  least := fun fs ht hfs hall => h.least fs u.files ht hfs (.refl _) hall

end Layout

end Build

end Rehome
