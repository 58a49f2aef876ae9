import Rehome.Proofs.Build.Transfer

/-! What copies leave that are made in any order, or at the same time. Where they were made one after the
other, each of them is made among the others, and in the end there is what was left then. -/

namespace Rehome

open FileSystem (pathNames startOf ChangedAt)
open Rehome.Path (IsPlain)

namespace FileSystem

variable {fs fs' : FileSystem} {cwd S q : Location} {dir path t : Text} {names : List Text}

/-- The path leads to the text at `q`: to a directory first, and from there by a plain name. -/
structure Readable (fs : FileSystem) (cwd : Location) (path : Text) (q : Location) (t : Text) : Prop where
  ne_nil : path ≠ []
  size : path.byteSize ≤ maxPathBytes
  slash : Path.endsInSlash path = false
  way : ∃ init n d via, q = n :: d ∧ pathNames path = init ++ [n] ∧ IsPlain n ∧
    n.byteSize ≤ maxNameBytes ∧ via.length ≤ maxLinks ∧ fs.Leads (startOf cwd path) init via d
  file : fs.lookup q = some (.file (.text t))

namespace Readable

theorem outlines (h : Readable fs cwd path q t) (hout : fs.Outlines fs')
    (hq : fs'.lookup q = some (.file (.text t))) : Readable fs' cwd path q t := by
  obtain ⟨init, n, d, via, hnd, hnames, hn, hbytes, hlen, hv⟩ := h.way
  exact ⟨h.ne_nil, h.size, h.slash, ⟨init, n, d, via, hnd, hnames, hn, hbytes, hlen, hout.leads hv⟩, hq⟩

theorem read (h : Readable fs cwd path q t) : fs.read cwd path = .ok (.text t) := by
  obtain ⟨init, n, d, via, rfl, hnames, hn, hbytes, hlen, hv⟩ := h.way
  have hfind : fs.find cwd .look path = .ok (.found (n :: d) (.file (.text t))) := by
    rw [find_eq_walk h.ne_nil h.size, h.slash, hnames, walk_append hv hlen (List.cons_ne_nil n [])]
    exact walk_file hn.ne_here hn.ne_up hbytes h.file
  rw [FileSystem.read, hfind]

end Readable

/-- Plain names lead straight down to a directory that stands there. -/
theorem leads_straight (hplain : ∀ n ∈ names, IsPlain n ∧ n.byteSize ≤ maxNameBytes)
    (h : fs.lookup (names.reverse ++ S) = some .directory) : fs.Leads S names [] (names.reverse ++ S) := by
  have hn : ∀ n ∈ names, n ≠ Path.here ∧ n ≠ Path.up ∧ n.byteSize ≤ maxNameBytes :=
    fun n hn => ⟨(hplain n hn).1.ne_here, (hplain n hn).1.ne_up, (hplain n hn).2⟩
  have hw : fs.walk .look 0 false S names = .ok (.found (names.reverse ++ S) .directory) :=
    walk_directories hn (by simp) h
  obtain ⟨via, hlen, hv⟩ := leads_of_walk hw
  rwa [List.length_eq_zero_iff.1 (Nat.le_zero.1 hlen)] at hv

/-- A text below a directory that was read later, when there was more, can be read from the start. -/
theorem readable_of_read {a : Content} (hdir : fs.find cwd .look dir = .ok (.found S .directory))
    (hplain : ∀ n ∈ names, IsPlain n) (hne : names ≠ [])
    (hfile : fs.lookup (names.reverse ++ S) = some (.file a)) (hout : fs.Outlines fs')
    (hsame : fs'.lookup (names.reverse ++ S) = some (.file a))
    (hread : fs'.read cwd (Path.join dir (Path.ofSegments names)) = .ok (.text t)) :
    Readable fs cwd (Path.join dir (Path.ofSegments names)) (names.reverse ++ S) t := by
  have hrel := Path.isAbsolute_ofSegments hplain
  have hslash := (Path.Ends.join dir (.ofSegments hplain hne) hrel).slash
  obtain ⟨init, n, rfl⟩ := (List.eq_nil_or_concat names).resolve_left hne
  rw [List.concat_eq_append] at *
  obtain ⟨hinit, hn⟩ := List.forall_mem_append.1 hplain
  rw [List.forall_mem_singleton] at hn
  rw [List.reverse_append, List.append_assoc, List.reverse_singleton, List.singleton_append] at *
  have hnames : pathNames (Path.join dir (Path.ofSegments (init ++ [n]))) =
      (pathNames dir ++ init) ++ [n] := by
    rw [pathNames_join dir hrel, pathNames_ofSegments hplain, List.append_assoc]
  have hstart := startOf_join cwd dir hrel
  unfold FileSystem.read at hread
  split at hread
  · next q b hf =>
    cases hread
    obtain ⟨hne', hsize, hw⟩ := find_ok hf
    rw [hnames, hstart] at hw
    obtain ⟨via, d, -, hv, hlast⟩ := leads_of_walk_append (List.cons_ne_nil n []) hw
    obtain ⟨-, -, via₀, hlen₀, hv₀⟩ := find_look_directory_iff.1 hdir
    obtain ⟨S', v₁, v₂, -, h₁, h₂⟩ := hv.split
    obtain ⟨-, rfl⟩ := h₁.deterministic (hout.leads hv₀)
    have hparent := lookup_parent hfile
    obtain ⟨-, rfl⟩ := h₂.straight hinit (hout.directory hparent)
    have hbytes : ∀ k ∈ init, IsPlain k ∧ k.byteSize ≤ maxNameBytes := fun k hk =>
      ⟨hinit k hk, h₂.byteSize_le k hk (hinit k hk).ne_here (hinit k hk).ne_up⟩
    obtain ⟨hsize', hend⟩ := walk_cons_ok hn.ne_here hn.ne_up hlast
    have ht : a = .text t := by
      rcases hend with ⟨hl, -⟩ | ⟨l, -, hl, -⟩ | ⟨-, ⟨hl, -⟩ | ⟨x, hl, -, he, -⟩⟩ <;> rw [hsame] at hl <;>
        cases hl
      cases he
      rfl
    refine ⟨hne', hsize, hslash, ⟨pathNames dir ++ init, n, _, via₀ ++ [], rfl, hnames, hn, hsize',
      by simpa using hlen₀, ?_⟩, ht ▸ hfile⟩
    rw [hstart]
    exact hv₀.append (leads_straight hbytes hparent)
  all_goals cases hread

end FileSystem

namespace Build

variable {base n : Text} {D d : Location} {F : FileSystem} {s u v w : Host} {c : Copy}
  {cs done new : List Copy} {p : Package}

/-- The copy stands in its place, and its path leads there. -/
structure Copy.Stands (cwd : Location) (base : Text) (D : Location) (c : Copy) (fs : FileSystem) : Prop where
  parent : ∃ d, fs.find cwd .look (Path.parent (c.path base)) = .ok (.found d .directory)
  file : fs.lookup (c.place D) = some (.file (.text c.output.text))

/-- From the host `s` on, `F` is what copies leave. Each of them can be made alone, all of them have places of
their own, and in `F` nothing is new that they do not need. -/
structure Layout (s : Host) (base : Text) (D : Location) (cs : List Copy) (F : FileSystem) : Prop where
  outlines : s.files.Outlines F
  nodup : (cs.map (Copy.place D)).Nodup
  plain : ∀ c ∈ cs, c.Plain
  source : ∀ c ∈ cs, '\x00' ∉ c.source ∧
    ∃ q, q ∉ cs.map (Copy.place D) ∧ s.files.Readable s.cwd c.source q c.text
  lays : ∀ c ∈ cs, Lays s.cwd s.files F (Path.parent (c.path base))
  slot : ∀ c ∈ cs, ∃ d n, c.place D = n :: d ∧ Slot s.cwd F (c.path base) d n
  file : ∀ c ∈ cs, F.lookup (c.place D) = some (.file (.text c.output.text))
  changed : ChangedAt (cs.map (Copy.place D)) s.files F
  least : ∀ fs, s.files.Outlines fs → fs.Outlines F → (∀ c ∈ cs, c.Stands s.cwd base D fs) → F.Outlines fs

/-- The host `u` may be left by some of the calls that lead from `s` to `F`. -/
structure Amid (s : Host) (D : Location) (cs : List Copy) (F : FileSystem) (u : Host) : Prop where
  cwd_eq : u.cwd = s.cwd
  above : s.files.Outlines u.files
  below : u.files.Outlines F
  changed : ChangedAt (cs.map (Copy.place D)) s.files u.files

/-- On the way from `s` to `F` the copies in `done` have been made. -/
structure Partly (s : Host) (base : Text) (D : Location) (cs : List Copy) (F : FileSystem) (done : List Copy)
    (u : Host) : Prop where
  amid : Amid s D cs F u
  mem : done ⊆ cs
  stands : ∀ c ∈ done, c.Stands s.cwd base D u.files

namespace Copy

/-- What a copy relies on: others leave all that stands, and the text at its place. -/
def Relies (D : Location) (c : Copy) (u v : Host) : Prop :=
  u.files.Outlines v.files ∧ v.files.lookup (c.place D) = u.files.lookup (c.place D)

/-- What others can rely on: the copy leaves all that stands, and the texts at their places. -/
def Grants (D : Location) (cs : List Copy) (c : Copy) (u v : Host) : Prop :=
  u.files.Outlines v.files ∧ ∀ c' ∈ cs, c'.place D ≠ c.place D →
    v.files.lookup (c'.place D) = u.files.lookup (c'.place D)

theorem Grants.refl (D : Location) (cs : List Copy) (c : Copy) (u : Host) : Grants D cs c u u :=
  ⟨.refl _, fun _ _ _ => rfl⟩

theorem Stands.relies {cwd : Location} (h : c.Stands cwd base D u.files) (hR : c.Relies D u v) :
    c.Stands cwd base D v.files := by
  obtain ⟨d, hd⟩ := h.parent
  exact ⟨⟨d, hR.1.find_directory hd⟩, hR.2.trans h.file⟩

end Copy

theorem map_entry_eq {P : Copy → Prop} {ds : List Declaration} (h : List.Forall₂
      (fun (c : Copy) (d : Declaration) => Manifest.entry d.home d.relPath = c.entry ∧ P c) cs ds) :
    ds.map (fun d => Manifest.entry d.home d.relPath) = cs.map Copy.entry ∧ ∀ c ∈ cs, P c := by
  induction h with
  | nil => exact ⟨rfl, by simp⟩
  | cons hd _ ih =>
    rw [List.map_cons, List.map_cons, hd.1, ih.1]
    exact ⟨rfl, List.forall_mem_cons.2 ⟨hd.2, ih.2⟩⟩

namespace Layout

/-- Where nothing is copied all stays as it is. -/
theorem nil (hF : F = s.files) : Layout s base D [] F where
  outlines := hF ▸ .refl _
  nodup := List.nodup_nil
  plain := by simp
  source := by simp
  lays := by simp
  slot := by simp
  file := by simp
  changed := hF ▸ .refl _ _
  least := fun _ hs _ _ => hF ▸ hs

variable (h : Layout s base D cs F)
include h

theorem amid_self : Amid s D cs F s := ⟨rfl, .refl _, h.outlines, .refl _ _⟩

theorem ne_of_nodup {c c' : Copy} (hc : c ∈ cs) (hc' : c' ∈ cs) (hne : c ≠ c') : c.place D ≠ c'.place D :=
  fun he => hne (List.inj_on_of_nodup_map h.nodup hc hc' he)

/-- Directories that are made leave the places of the copies alone. -/
theorem grounds (c : Copy) :
    Grounds s.cwd s.files F (Amid s D cs F) (c.Relies D) (c.Grants D cs) where
  cwd_eq := fun u hu => hu.cwd_eq
  above := fun u hu => hu.above
  below := fun u hu => hu.below
  rely := fun u v hR => hR.1
  still := fun u => .refl D cs c u
  make := by
    intro u d n hu hnone hdir
    have hput : u.files.Outlines (u.files.put d n .directory) := .put fun y hy => by
      rw [hnone] at hy
      cases hy
    refine ⟨⟨hu.cwd_eq, hu.above.trans hput, hu.below.put_left hdir (.refl _),
      hu.changed.trans (.put_directory hnone)⟩, hput, fun c' hc' _ => ?_⟩
    apply FileSystem.lookup_put_of_ne
    intro he
    have hfile := h.file c' hc'
    rw [he, hdir] at hfile
    cases hfile

/-- A copy is made among others as it is alone. -/
theorem prepare_withstands (hc : c ∈ cs) :
    (prepare c.package base c.rel).Withstands (Amid s D cs F) (c.Relies D) (c.Grants D cs)
      (fun r v => ∃ e, r = .ok e ∧ Manifest.entry e.home e.relPath = c.entry ∧
        c.Stands s.cwd base D v.files) u := by
  have hg := h.grounds c
  obtain ⟨hnul, q, hq, hsource⟩ := h.source c hc
  obtain ⟨d, n, hplace, hslot⟩ := h.slot c hc
  apply Action.Withstands.bind (Q := fun r v => r = .ok c.text ∧ s.files.Outlines v.files)
  · intro x _ hI
    have hread : x.files.read x.cwd c.source = .ok (.text c.text) := by
      rw [hI.cwd_eq]
      exact (hsource.outlines hI.above (hI.changed.lookup_eq hq hsource.file)).read
    have hanswer : x.answer (.read c.source) = (.ok c.text, x) :=
      Host.perform_read_ok_iff.2 ⟨rfl, hnul, hread⟩
    rw [show Path.join c.package.sourceDir c.rel = c.source from rfl, hanswer]
    exact ⟨hI, hg.still x, rfl, hI.above⟩
  · rintro t x ⟨ht, hx⟩
    cases ht
    have hput : ∀ y a, Amid s D cs F y →
        Amid s D cs F { y with files := y.files.putFile (n :: d) (.text a) } ∧
          c.Grants D cs y { y with files := y.files.putFile (n :: d) (.text a) } := by
      intro y a hI
      obtain ⟨hout, hF⟩ := hslot.putFile hI.below a
      refine ⟨⟨hI.cwd_eq, hI.above.trans hout, hF, hI.changed.trans (.put ?_)⟩, hout, fun c' _ hne => ?_⟩
      · exact hplace ▸ List.mem_map_of_mem hc
      · exact FileSystem.lookup_put_of_ne (hplace ▸ hne)
    apply (writeText_withstands hg hslot (h.lays c hc) hput hx).bind
    · rintro ⟨⟩ y ⟨-, hparent, hfile⟩
      intro z hR hI
      refine ⟨⟨hI.cwd_eq, hI.above, hI.below, hI.changed⟩, hg.still z, _, rfl, ?_, ?_⟩
      · show Manifest.entry c.package.home c.rel.slashed = c.entry
        rw [Copy.rel, slashed_ofSegments (h.plain c hc).noBackslash]
        rfl
      · have hstands : c.Stands s.cwd base D y.files := ⟨⟨d, hparent⟩, hplace ▸ hfile⟩
        exact hstands.relies hR
    · rintro e y ⟨he, -⟩
      cases he
  · rintro e x ⟨he, -⟩
    cases he

/-- What one copy guarantees is what all others rely on. -/
theorem compatible (hnew : new ⊆ cs) (hnodup : new.Nodup) :
    Compatible (Copy.Relies D) (Copy.Grants D cs) new where
  refl := fun _ _ => ⟨.refl _, rfl⟩
  trans := fun _ _ _ _ hR hR' => ⟨hR.1.trans hR'.1, hR'.2.trans hR.2⟩
  pairwise := by
    apply hnodup.imp_of_mem
    intro c c' hc hc' hne u v
    have hplace := h.ne_of_nodup (hnew hc) (hnew hc') hne
    exact ⟨fun hG => ⟨hG.1, hG.2 c' (hnew hc') hplace.symm⟩, fun hG => ⟨hG.1, hG.2 c (hnew hc) hplace⟩⟩

/-- Where all copies stand, all is as it is in `F`. -/
theorem lookup_eq (hu : Amid s D cs F u) (hall : ∀ c ∈ cs, c.Stands s.cwd base D u.files) (q : Location) :
    u.files.lookup q = F.lookup q := by
  have hleast := h.least u.files hu.above hu.below hall
  refine hleast.lookup_eq hu.below fun a b ha hb => ?_
  by_cases hq : q ∈ cs.map (Copy.place D)
  · obtain ⟨c, hc, rfl⟩ := List.mem_map.1 hq
    have ha' := h.file c hc
    have hb' := (hall c hc).file
    rw [ha] at ha'
    rw [hb] at hb'
    cases ha'
    cases hb'
    rfl
  · have ha' := h.changed.lookup_eq_of_ne hq ha (by simp)
    have hb' := hu.changed.lookup_eq_of_ne hq hb (by simp)
    rw [ha'] at hb'
    cases hb'
    rfl

theorem partly_self : Partly s base D cs F [] s := ⟨h.amid_self, List.nil_subset _, by simp⟩

/-- Whichever calls come first, more copies are made, and those that were made before stay. -/
theorem pool_partly {r : Except Fault (List Declaration)} (hu : Partly s base D cs F done u)
    (hnew : new ⊆ cs) (hnodup : (done ++ new).Nodup)
    (hpool : Course.pool (new.map fun c => prepare c.package base c.rel) u r v) :
    (∃ ds, r = .ok ds ∧ ds.map (fun d => Manifest.entry d.home d.relPath) = new.map Copy.entry) ∧
      Partly s base D cs F (done ++ new) v := by
  let Q : Copy → Declaration → Host → Prop := fun c d v =>
    Manifest.entry d.home d.relPath = c.entry ∧ c.Stands s.cwd base D v.files
  have hstable : ∀ c (r : Except Fault Declaration) u v, (∃ d, r = .ok d ∧ Q c d u) → c.Relies D u v →
      ∃ d, r = .ok d ∧ Q c d v :=
    fun _ _ _ _ ⟨d, hd, hQ⟩ hR => ⟨d, hd, hQ.1, hQ.2.relies hR⟩
  have hxs : List.Forall₂ (fun (c : Copy) x => Action.Withstands (Amid s D cs F) (c.Relies D) (c.Grants D cs)
      (fun r v => ∃ d, r = .ok d ∧ Q c d v) x u) new (new.map fun c => prepare c.package base c.rel) := by
    rw [List.forall₂_map_right_iff, List.forall₂_same]
    intro c hc
    exact h.prepare_withstands (hnew hc)
  obtain ⟨-, hnodup, hfresh⟩ := List.nodup_append.1 hnodup
  -- What is copied now leaves the copies that were made before in their places.
  have hkept : ∀ c ∈ new, ∀ u v, c.Grants D cs u v → (∀ c' ∈ done, c'.Stands s.cwd base D u.files) →
      ∀ c' ∈ done, c'.Stands s.cwd base D v.files := by
    intro c hc u v hG hold c' hc'
    have hplace := h.ne_of_nodup (hu.mem hc') (hnew hc) (hfresh c' hc' c hc)
    exact (hold c' hc').relies ⟨hG.1, hG.2 c' (hu.mem hc') hplace⟩
  obtain ⟨hv, hdone, ps, hyield, hall⟩ :=
    Course.pool_withstands hpool (h.compatible hnew hnodup) hstable hxs hu.amid hkept hu.stands
  obtain ⟨ds, rfl, hds⟩ := hyield.of_withstands hall
  obtain ⟨hentries, hstands⟩ := map_entry_eq hds
  exact ⟨⟨ds, rfl, hentries⟩, hv, List.append_subset.2 ⟨hu.mem, hnew⟩, List.forall_mem_append.2 ⟨hdone, hstands⟩⟩

/-- Whichever calls come first, all copies are made, and what is left is what `F` has. -/
theorem pool {r : Except Fault (List Declaration)}
    (hpool : Course.pool (cs.map fun c => prepare c.package base c.rel) s r u) :
    (∃ ds, r = .ok ds ∧ ds.map (fun d => Manifest.entry d.home d.relPath) = cs.map Copy.entry) ∧
      u.cwd = s.cwd ∧ ∀ q, u.files.lookup q = F.lookup q := by
  obtain ⟨hds, hu⟩ := h.pool_partly h.partly_self (List.Subset.refl _) h.nodup.of_map hpool
  exact ⟨hds, hu.amid.cwd_eq, h.lookup_eq hu.amid hu.stands⟩

end Layout

/-! ### From copies that are made one after the other -/

namespace Copy.Plain

/-- In a field the root of the copy has no links inside. -/
theorem find_root (hc : c.Plain) (hfield : Field s.cwd base D F) (hslot : Slot s.cwd F (c.path base) d n) :
    ∃ r, F.find s.cwd .look (c.root base) = .ok (.found r .directory) ∧ F.LinkFree r := by
  obtain ⟨init, n, -, hinit, hheads⟩ := hc.heads base
  have hparent := hslot.parent
  rw [hheads.parent_eq] at hparent
  obtain ⟨r, hr⟩ := find_of_descend (hc.ends_root base).ne_nil hinit hparent
  refine ⟨r, hr, ?_⟩
  obtain ⟨via, -, hv⟩ := FileSystem.leads_of_find hr
  rw [hc.pathNames_root, Copy.root, FileSystem.startOf_join _ base hc.isAbsolute_home] at hv
  obtain ⟨p, v₁, v₂, -, h₁, h₂⟩ := hv.split
  obtain ⟨via, hD⟩ := hfield.leads
  obtain ⟨-, rfl⟩ := h₁.deterministic hD
  rw [h₂.eq_of_plain hfield.linkFree List.suffix_rfl hc.home]
  exact fun q t hq => hfield.linkFree q t ((List.suffix_append ..).trans hq)

end Copy.Plain

namespace Transfers

variable (h : Transfers base s cs w) (hplain : ∀ c ∈ cs, c.Plain) (hfield : Field s.cwd base D w.files)
  (hroots : ∀ c ∈ cs, ∀ c' ∈ cs, Lays s.cwd s.files w.files (c.root base) →
    Lays s.cwd s.files w.files (c'.root base))
include h hplain hfield hroots

/-- Since the directories of the first copy could be made, those of all copies can be made first. -/
theorem lays : ∀ c ∈ cs, Lays s.cwd s.files w.files (Path.parent (c.path base)) := by
  have hslots := h.slot hplain (.refl _) hfield
  have hnul : ∀ c ∈ cs, '\x00' ∉ Path.parent (c.path base) := by
    intro c hc hmem
    obtain ⟨d, n, -, hslot⟩ := hslots c hc
    exact hslot.nul ((FileSystem.split_fst_isPrefix _).subset hmem)
  have hroot : ∀ c ∈ cs, Lays s.cwd s.files w.files (c.root base) := by
    cases h with
    | nil => simp
    | @cons _ v _ c₀ cs h hrest =>
      have hc₀ := hplain c₀ List.mem_cons_self
      obtain ⟨d, n, hl⟩ := h.landing hc₀ hrest.outlines hfield
      obtain ⟨init, k, -, hinit, hheads⟩ := hc₀.heads base
      have hlays := hl.lays
      have hnul₀ := hnul c₀ List.mem_cons_self
      rw [hheads.parent_eq] at hlays hnul₀
      exact fun c hc => hroots c₀ List.mem_cons_self c hc (hlays.of_descend (hc₀.rung_root base) hinit hnul₀)
  intro c hc
  obtain ⟨d, n, -, hslot⟩ := hslots c hc
  obtain ⟨r, hr, hfree⟩ := (hplain c hc).find_root hfield hslot
  obtain ⟨init, k, -, hinit, hheads⟩ := (hplain c hc).heads base
  have hnul₀ := hnul c hc
  have hparent := hslot.parent
  rw [hheads.parent_eq] at hnul₀ hparent ⊢
  exact (hroot c hc).descend ((hplain c hc).rung_root base) hinit hnul₀ h.outlines hr hfree ⟨d, hparent⟩

/-- Copies that were made one after the other are a layout of what they left. -/
theorem layout (hnodup : (cs.map (Copy.place D)).Nodup)
    (hsource : ∀ c ∈ cs, ∃ S a, s.files.find s.cwd .look c.package.sourceDir = .ok (.found S .directory) ∧
      s.files.lookup (c.names.reverse ++ S) = some (.file a) ∧ ¬ D <:+ S ∧ ¬ S <:+ D) :
    Layout s base D cs w.files where
  outlines := h.outlines
  nodup := hnodup
  plain := hplain
  source := by
    intro c hc
    obtain ⟨S, a, hS, hfile, habove, hbelow⟩ := hsource c hc
    obtain ⟨hnul, x, -, hout, hchanged, hread⟩ := h.read hplain (.refl _) hfield c hc
    have hplace : c.names.reverse ++ S ∉ cs.map (Copy.place D) := by
      intro hmem
      obtain ⟨c', -, he⟩ := List.mem_map.1 hmem
      have hD : D <:+ c.names.reverse ++ S := he ▸ List.suffix_append ..
      rcases List.suffix_or_suffix_of_suffix hD (List.suffix_append ..) with hs | hs
      · exact habove hs
      · exact hbelow hs
    exact ⟨hnul, _, hplace, FileSystem.readable_of_read hS (hplain c hc).names (hplain c hc).ne_nil hfile hout
      (hchanged.lookup_eq hplace hfile) hread⟩
  lays := h.lays hplain hfield hroots
  slot := h.slot hplain (.refl _) hfield
  file := h.file hplain (.refl _) hfield hnodup
  changed := h.changed hplain (.refl _) hfield
  least := fun fs hs hfs hall => h.least hplain (.refl _) hfield hs hfs (fun c hc => (hall c hc).parent)
    fun c hc => ⟨_, (hall c hc).file⟩

end Transfers

end Build

end Rehome
