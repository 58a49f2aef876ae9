import Rehome.Proofs.Build.Copies
import Rehome.Proofs.Build.Slot

/-! Files that are copied one after the other. Of each of them it is known where it comes to stand, what is
made on the way there, and that nothing else is done. -/

namespace Rehome

open FileSystem (pathNames startOf)
open Rehome.Path (IsPlain)

namespace Build

variable {base : Text} {cwd D d : Location} {n : Text} {F : FileSystem} {c : Copy} {cs : List Copy}
  {u v w : Host}

/-- Where the base of a build leads in `F` there are no links. -/
structure Field (cwd : Location) (base : Text) (D : Location) (F : FileSystem) : Prop where
  leads : ∃ via, F.Leads (startOf cwd base) (pathNames base) via D
  linkFree : F.LinkFree D

namespace Copy

def source (c : Copy) : Text := Path.join c.package.sourceDir c.rel

def path (base : Text) (c : Copy) : Text := Path.join (Path.join base c.package.home) c.rel

/-- The path of the directory that all copies of the package are made in. -/
def root (base : Text) (c : Copy) : Text := Path.join base c.package.home

def place (D : Location) (c : Copy) : Location := c.output.names.reverse ++ D

/-- All names on the way from the base are plain ones. -/
structure Plain (c : Copy) : Prop where
  home : ∀ n ∈ Path.segments c.package.home, IsPlain n
  names : ∀ n ∈ c.names, IsPlain n
  ne_nil : c.names ≠ []
  noBackslash : ∀ n ∈ c.names, '\\' ∉ n

/-- The path of the copy goes on from the directory `head` by the name `n`. -/
structure Heads (base : Text) (c : Copy) (head n : Text) : Prop where
  plain : IsPlain n
  path_eq : c.path base = Path.join head n
  parent_eq : Path.parent (c.path base) = head
  names : pathNames (c.path base) = pathNames head ++ [n]
  start : ∀ cwd, startOf cwd (c.path base) = startOf cwd head
  last : EndsPlain head

namespace Plain

variable (h : c.Plain)
include h

theorem isAbsolute_home : Path.isAbsolute c.package.home = false :=
  Path.ofSegments_segments c.package.home ▸ Path.isAbsolute_ofSegments h.home

theorem ends_root (base : Text) : Path.Ends (c.root base) := by
  have hends := Path.Ends.ofSegments h.home (Path.segments_ne_nil _)
  rw [Path.ofSegments_segments] at hends
  exact .join base hends h.isAbsolute_home

theorem pathNames_root (base : Text) :
    pathNames (c.root base) = pathNames base ++ Path.segments c.package.home := by
  have hhome := FileSystem.pathNames_ofSegments h.home
  rw [Path.ofSegments_segments] at hhome
  rw [root, FileSystem.pathNames_join base h.isAbsolute_home, hhome]

theorem endsPlain (base : Text) {init : List Text} (hinit : ∀ k ∈ init, IsPlain k) :
    EndsPlain (Path.descend (c.root base) init) := by
  have halong := (FileSystem.descend_along [] (c.root base) hinit).1
  rw [h.pathNames_root, List.append_assoc] at halong
  obtain ⟨names, k, hk⟩ := (List.eq_nil_or_concat (Path.segments c.package.home ++ init)).resolve_left
    (List.append_ne_nil_of_left_ne_nil (Path.segments_ne_nil _) _)
  rw [List.concat_eq_append] at hk
  refine ⟨pathNames base ++ names, k, by rw [halong, hk, List.append_assoc], ?_⟩
  have hmem : k ∈ Path.segments c.package.home ++ init := hk ▸ List.mem_append_right _ List.mem_cons_self
  exact List.forall_mem_append.2 ⟨h.home, hinit⟩ k hmem

theorem rung_root (base : Text) : Rung (c.root base) :=
  .of_ends (h.ends_root base) (h.endsPlain base (by simp : ∀ k ∈ [], IsPlain k))

/-- The directories on the way to the copy are those below the root of its package. -/
theorem heads (base : Text) : ∃ init n, c.names = init ++ [n] ∧ (∀ k ∈ init, IsPlain k) ∧
    c.Heads base (Path.descend (c.root base) init) n := by
  obtain ⟨init, n, hnames⟩ := (List.eq_nil_or_concat c.names).resolve_left h.ne_nil
  rw [List.concat_eq_append] at hnames
  have hplain := hnames ▸ h.names
  have hinit : ∀ k ∈ init, IsPlain k := fun k hk => hplain k (List.mem_append_left _ hk)
  have hn : IsPlain n := hplain n (by simp)
  have hrel := Path.isAbsolute_eq_false_of_plain hn
  have hends := (h.ends_root base).descend hinit
  have hpath : c.path base = Path.join (Path.descend (c.root base) init) n := by
    rw [← Path.descend_concat, ← Path.join_ofSegments _ hplain (by simp), ← hnames]
    rfl
  refine ⟨init, n, hnames, hinit, hn, hpath, ?_, ?_, ?_, ?_⟩
  · rw [Path.parent, hpath, hends.split_join hn]
  · rw [hpath, FileSystem.pathNames_join _ hrel, FileSystem.pathNames_eq_singleton hn.ne_nil hn.slash_not_mem]
  · intro cwd
    rw [hpath, FileSystem.startOf_join cwd _ hrel]
  · exact h.endsPlain base hinit

/-- In a field the directories on the way to the copy stand straight below its base. -/
theorem place_of_leads (hfield : Field cwd base D F) {init : List Text} (hnames : c.names = init ++ [n])
    (hinit : ∀ k ∈ init, IsPlain k) {via : List Location}
    (hv : F.Leads (startOf cwd (Path.descend (c.root base) init))
      (pathNames (Path.descend (c.root base) init)) via d) : c.place D = n :: d := by
  obtain ⟨via', hD⟩ := hfield.leads
  obtain ⟨halong, hstart⟩ := FileSystem.descend_along cwd (c.root base) hinit
  rw [halong, hstart, h.pathNames_root, root, FileSystem.startOf_join cwd base h.isAbsolute_home,
    List.append_assoc] at hv
  obtain ⟨p, v₁, v₂, -, h₁, h₂⟩ := hv.split
  obtain ⟨-, rfl⟩ := h₁.deterministic hD
  rw [h₂.eq_of_plain hfield.linkFree List.suffix_rfl (List.forall_mem_append.2 ⟨h.home, hinit⟩)]
  simp [place, output, hnames]

/-- Where a copy was opened its directory was there. -/
theorem found_head {x y : Host} {p : Location} (base : Text)
    (hcreate : x.answer (.create (c.path base)) = (.ok p, y)) :
    '\x00' ∉ c.path base ∧ ∃ init n d, c.names = init ++ [n] ∧ (∀ k ∈ init, IsPlain k) ∧
      c.Heads base (Path.descend (c.root base) init) n ∧
      x.files.find x.cwd .look (Path.descend (c.root base) init) = .ok (.found d .directory) := by
  obtain ⟨init, n, hnames, hinit, hheads⟩ := h.heads base
  have hne : Path.descend (c.root base) init ≠ [] := ((h.ends_root base).descend hinit).ne_nil
  have hpre := FileSystem.split_fst_isPrefix (c.path base)
  rw [← Path.parent, hheads.parent_eq] at hpre
  obtain ⟨hnul, d, hd⟩ := Host.found_of_create hcreate hpre hne hheads.names (List.cons_ne_nil _ _)
  exact ⟨hnul, init, n, d, hnames, hinit, hheads, hd⟩

/-- Where a copy was opened the base leads somewhere. -/
theorem leads_of_create {x y : Host} {p : Location} (hcreate : x.answer (.create (c.path base)) = (.ok p, y)) :
    ∃ D via, x.files.Leads (startOf x.cwd base) (pathNames base) via D := by
  obtain ⟨-, init, n, d, -, hinit, -, hd⟩ := h.found_head base hcreate
  obtain ⟨via, -, hleads⟩ := FileSystem.leads_of_find hd
  obtain ⟨halong, hstart⟩ := FileSystem.descend_along x.cwd (c.root base) hinit
  rw [halong, hstart, h.pathNames_root, Copy.root, FileSystem.startOf_join _ base h.isAbsolute_home,
    List.append_assoc] at hleads
  obtain ⟨D, via', -, -, hD, -⟩ := hleads.split
  exact ⟨D, via', hD⟩

/-- In a field a copy is opened at its place, once its directory is there. -/
theorem create_at {x y : Host} {p : Location} (hF : x.files.Outlines F) (hfield : Field x.cwd base D F)
    (hcreate : x.answer (.create (c.path base)) = (.ok p, y)) :
    ∃ d n, c.place D = n :: d ∧ p = n :: d ∧ x.files.HasRoom d n ∧
      x.files.find x.cwd .look (Path.parent (c.path base)) = .ok (.found d .directory) ∧
      ∀ fs, x.files.Outlines fs → (∃ b, fs.lookup (n :: d) = some (.file b)) →
        Slot x.cwd fs (c.path base) d n := by
  obtain ⟨hnul, init, n, d, hnames, hinit, hheads, hd⟩ := h.found_head base hcreate
  obtain ⟨via, -, hleads⟩ := FileSystem.leads_of_find hd
  have hplace : c.place D = n :: d := h.place_of_leads hfield hnames hinit (hF.leads hleads)
  have hlink : ∀ l, x.files.lookup (n :: d) ≠ some (.link l) := by
    intro l hl
    exact hfield.linkFree _ l (hplace ▸ List.suffix_append ..) (hF.keepsWays _ _ hl (by simp))
  rw [← hheads.parent_eq] at hd
  obtain ⟨hbytes, hsize, hslash, hp⟩ := Host.create_below hcreate
    (by rw [hheads.parent_eq, hheads.names]) (by rw [hheads.parent_eq, hheads.start]) hheads.plain hd
  obtain rfl := hp hlink
  have hname : IsName n := Host.isName_of_mem_pathNames hheads.plain.ne_here hheads.plain.ne_up
    (by simp [hheads.names]) hnul
  have hlast : EndsPlain (Path.parent (c.path base)) := hheads.parent_eq.symm ▸ hheads.last
  have hroom : x.files.HasRoom d n := .of_free hname (hlast.lookup hd) (Host.lookup_of_create hcreate).1
  refine ⟨d, n, hplace, rfl, hroom, hd, fun fs hfs hfile => ?_⟩
  exact
    { nul := hnul, size := hsize, name := hname, bytes := hbytes, slash := hslash
      names := by rw [hheads.parent_eq, hheads.names]
      start := by rw [hheads.parent_eq, hheads.start]
      last := hlast, parent := hfs.find_directory hd, file := hfile }

end Plain

end Copy

/-! ### One file -/

/-- Making directories makes nothing else. -/
theorem makeDirectories_changed (u : Host) (path : Text) :
    (u.perform (makeDirectories path)).2.cwd = u.cwd ∧
      FileSystem.ChangedAt [] u.files (u.perform (makeDirectories path)).2.files := by
  have hkeeps : (makeDirectories path).Keeps
      (fun x => x.cwd = u.cwd ∧ FileSystem.ChangedAt [] u.files x.files) fun _ => True := by
    apply makeDirectories_keeps_heads
    intro head _ _ _ x ⟨hcwd, hx⟩
    rcases x.answer_makeDirectory head with ⟨e, he⟩ | ⟨d, n, -, hf, he⟩ <;> rw [he]
    · exact ⟨hcwd, hx⟩
    obtain ⟨-, -, -, -, hnone, -⟩ := FileSystem.find_nameEntry_absent_iff.1 hf
    exact ⟨hcwd, hx.trans (.put_directory hnone)⟩
  exact (Host.run_keeps hkeeps ⟨rfl, .refl _ _⟩).1

/-- From `u` to `v` a file is copied, whatever is logged. -/
structure Transfer (base : Text) (c : Copy) (u v : Host) : Prop where
  nul : '\x00' ∉ c.source
  read : u.files.read u.cwd c.source = .ok (.text c.text)
  cwd : v.cwd = u.cwd
  written : ∃ (t x y : Host) (p : Location), t.files = u.files ∧ t.cwd = u.cwd ∧
    t.perform (makeDirectories (Path.parent (c.path base))) = (.ok (), x) ∧
    x.answer (.create (c.path base)) = (.ok p, y) ∧ v.files = y.files.putFile p (.text c.output.text)

/-- The copy comes to stand in the directory `d`, under the name `n`. -/
structure Landing (base : Text) (D : Location) (F : FileSystem) (c : Copy) (u v : Host) (d : Location)
    (n : Text) : Prop where
  place : c.place D = n :: d
  slot : Slot u.cwd F (c.path base) d n
  lays : Lays u.cwd u.files F (Path.parent (c.path base))
  file : v.files.lookup (n :: d) = some (.file (.text c.output.text))
  changed : FileSystem.ChangedAt [n :: d] u.files v.files
  least : ∀ fs r, u.files.Outlines fs → fs.Outlines F →
    fs.find u.cwd .look (Path.parent (c.path base)) = .ok (.found r .directory) →
    (∃ t, fs.lookup (n :: d) = some (.file t)) → v.files.Outlines fs

namespace Transfer

/-- Where a file was opened its place is free for its text, too. -/
theorem lookup_putFile {fs : FileSystem} {p : Location} {a : Content}
    (h : fs.lookup p = none ∨ ∃ b, fs.lookup p = some (.file b)) :
    (fs.putFile p a).lookup p = none ∨ ∃ b, (fs.putFile p a).lookup p = some (.file b) := by
  cases p with
  | nil => exact h
  | cons n d =>
    rw [FileSystem.putFile]
    by_cases hroom : fs.HasRoom d n
    · exact .inr ⟨a, FileSystem.lookup_put_self hroom⟩
    · rwa [FileSystem.put_of_not_hasRoom hroom]

theorem link_of_putFile {fs : FileSystem} {p q : Location} {a : Content} {l : Text}
    (h : (fs.putFile p a).lookup q = some (.link l)) : fs.lookup q = some (.link l) := by
  cases p with
  | nil => exact h
  | cons n d =>
    rw [FileSystem.putFile] at h
    by_cases hroom : fs.HasRoom d n
    swap
    · rwa [FileSystem.put_of_not_hasRoom hroom] at h
    by_cases hq : q = n :: d
    · rw [hq, FileSystem.lookup_put_self hroom] at h
      cases h
    · rwa [FileSystem.lookup_put_of_ne hq] at h

theorem of_eq (h : Transfer base c v w) (hfiles : v.files = u.files) (hcwd : v.cwd = u.cwd) :
    Transfer base c u w := by
  obtain ⟨t, x, y, p, ht, htcwd, hrest⟩ := h.written
  exact ⟨h.nul, hfiles ▸ hcwd ▸ h.read, h.cwd.trans hcwd,
    t, x, y, p, ht.trans hfiles, htcwd.trans hcwd, hrest⟩

section

variable (h : Transfer base c u v)
include h

/-- The directories are made first, in `x`, and then the file is filled. -/
theorem split : ∃ (t x y : Host) (p : Location), t.files = u.files ∧ t.cwd = u.cwd ∧
    t.perform (makeDirectories (Path.parent (c.path base))) = (.ok (), x) ∧ x.cwd = u.cwd ∧
    FileSystem.ChangedAt [] u.files x.files ∧ x.answer (.create (c.path base)) = (.ok p, y) ∧
    v.files = (x.files.putFile p (.text [])).putFile p (.text c.output.text) ∧
    u.files.Outlines x.files ∧ x.files.Outlines v.files := by
  obtain ⟨t, x, y, p, ht, htcwd, hmake, hcreate, hfiles⟩ := h.written
  obtain ⟨hcwd, hchanged⟩ := makeDirectories_changed t (Path.parent (c.path base))
  rw [hmake] at hcwd hchanged
  rw [ht] at hchanged
  obtain ⟨hfree, rfl⟩ := Host.lookup_of_create hcreate
  refine ⟨t, x, _, p, ht, htcwd, hmake, hcwd.trans htcwd, hchanged, hcreate, hfiles, ?_, ?_⟩
  · apply FileSystem.Outlines.of_extends
    intro q z hq
    exact hchanged.lookup_eq List.not_mem_nil hq
  · rw [hfiles]
    exact (FileSystem.Outlines.putFile hfree).trans (.putFile (lookup_putFile hfree))

/-- What stands before the copy stands after it, apart from the texts of files. -/
theorem outlines : u.files.Outlines v.files := by
  obtain ⟨t, x, y, p, -, -, -, -, -, -, -, hx, hv⟩ := h.split
  exact hx.trans hv

/-- No links are made. -/
theorem link {q : Location} {l : Text} (hq : v.files.lookup q = some (.link l)) :
    u.files.lookup q = some (.link l) := by
  obtain ⟨t, x, y, p, -, -, -, -, hchanged, -, hfiles, -⟩ := h.split
  rw [hfiles] at hq
  exact hchanged.lookup_eq_of_ne List.not_mem_nil (link_of_putFile (link_of_putFile hq)) (by simp)

/-- Once a file is copied the base leads somewhere. -/
theorem leads (hc : c.Plain) :
    ∃ D via, v.files.Leads (startOf u.cwd base) (pathNames base) via D := by
  obtain ⟨t, x, y, p, -, -, -, hcwd, -, hcreate, -, -, hv⟩ := h.split
  obtain ⟨D, via, hD⟩ := hc.leads_of_create hcreate
  rw [hcwd] at hD
  exact ⟨D, via, hv.leads hD⟩

theorem landing (hc : c.Plain) (hF : v.files.Outlines F) (hfield : Field u.cwd base D F) :
    ∃ d n, Landing base D F c u v d n := by
  obtain ⟨t, x, y, p, ht, htcwd, hmake, hcwd, hchanged, hcreate, hfiles, hx, hv⟩ := h.split
  have hxF := hv.trans hF
  obtain ⟨d, n, hplace, rfl, hroom, hd, hslot⟩ := hc.create_at hxF (hcwd.symm ▸ hfield) hcreate
  rw [hcwd] at hd hslot
  have hfill := FileSystem.filled_putFile (t := c.output.text) hroom fun _ => .inl rfl
  rw [← hfiles] at hfill
  refine ⟨d, n, hplace, hslot F hxF (hF.file hfill.file), ⟨t, x, ht, htcwd, hmake, hcwd, ⟨d, hd⟩, hxF⟩,
    hfill.file, ?_, ?_⟩
  · rw [hfiles]
    exact (hchanged.mono (List.nil_subset _)).trans
      ((FileSystem.ChangedAt.put List.mem_cons_self).trans (.put List.mem_cons_self))
  · rintro fs r hu hfs hfound ⟨a, ha⟩
    have hxfs : x.files.Outlines fs := by
      refine makeDirectories_least (q := d) hmake ?_ hxF (ht.symm ▸ hu) hfs (htcwd.symm ▸ hfound)
      rw [hcwd]
      exact hd
    rw [hfiles]
    exact (hxfs.put_left ha (.file _ _)).put_left ha (.file _ _)

end

end Transfer

/-! ### One file after the other -/

/-- From `u` to `w` files are copied, and nothing else is done to files. -/
inductive Transfers (base : Text) : Host → List Copy → Host → Prop where
  | nil {u w : Host} (hfiles : w.files = u.files) (hcwd : w.cwd = u.cwd) : Transfers base u [] w
  | cons {u v w : Host} {c : Copy} {cs : List Copy} (h : Transfer base c u v)
      (hrest : Transfers base v cs w) : Transfers base u (c :: cs) w

namespace Transfers

theorem cwd_eq (h : Transfers base u cs w) : w.cwd = u.cwd := by
  induction h with
  | nil _ hcwd => exact hcwd
  | cons h _ ih => exact ih.trans h.cwd

theorem outlines (h : Transfers base u cs w) : u.files.Outlines w.files := by
  induction h with
  | nil hfiles => exact hfiles ▸ .refl _
  | cons h _ ih => exact h.outlines.trans ih

theorem link {q : Location} {l : Text} (h : Transfers base u cs w) (hq : w.files.lookup q = some (.link l)) :
    u.files.lookup q = some (.link l) := by
  induction h with
  | nil hfiles => rwa [hfiles] at hq
  | cons h _ ih => exact h.link (ih hq)

theorem of_eq (h : Transfers base v cs w) (hfiles : v.files = u.files) (hcwd : v.cwd = u.cwd) :
    Transfers base u cs w := by
  cases h with
  | nil hfiles' hcwd' => exact .nil (hfiles'.trans hfiles) (hcwd'.trans hcwd)
  | cons h hrest => exact .cons (h.of_eq hfiles hcwd) hrest

section

variable (h : Transfers base u cs w) (hplain : ∀ c ∈ cs, c.Plain) (hF : w.files.Outlines F)
  (hfield : Field u.cwd base D F)
include h hplain hF hfield

theorem slot : ∀ c ∈ cs, ∃ d n, c.place D = n :: d ∧ Slot u.cwd F (c.path base) d n := by
  induction h with
  | nil => simp
  | cons h hrest ih =>
    obtain ⟨hc, hcs⟩ := List.forall_mem_cons.1 hplain
    obtain ⟨d, n, hl⟩ := h.landing hc (hrest.outlines.trans hF) hfield
    refine List.forall_mem_cons.2 ⟨⟨d, n, hl.place, hl.slot⟩, ?_⟩
    have hrest' := ih hcs hF (h.cwd.symm ▸ hfield)
    rwa [h.cwd] at hrest'

/-- Apart from the copies, only directories are new. -/
theorem changed : FileSystem.ChangedAt (cs.map (Copy.place D)) u.files w.files := by
  induction h with
  | nil hfiles => exact hfiles ▸ .refl _ _
  | cons h hrest ih =>
    obtain ⟨hc, hcs⟩ := List.forall_mem_cons.1 hplain
    obtain ⟨d, n, hl⟩ := h.landing hc (hrest.outlines.trans hF) hfield
    rw [List.map_cons, hl.place]
    exact (hl.changed.mono (by simp)).trans ((ih hcs hF (h.cwd.symm ▸ hfield)).mono (by simp))

theorem file (hnodup : (cs.map (Copy.place D)).Nodup) :
    ∀ c ∈ cs, w.files.lookup (c.place D) = some (.file (.text c.output.text)) := by
  induction h with
  | nil => simp
  | cons h hrest ih =>
    obtain ⟨hc, hcs⟩ := List.forall_mem_cons.1 hplain
    obtain ⟨hnew, hnodup⟩ := List.nodup_cons.1 hnodup
    have hfield' := h.cwd.symm ▸ hfield
    obtain ⟨d, n, hl⟩ := h.landing hc (hrest.outlines.trans hF) hfield
    refine List.forall_mem_cons.2 ⟨?_, ih hcs hF hfield' hnodup⟩
    exact (hrest.changed hcs hF hfield').lookup_eq hnew (hl.place ▸ hl.file)

/-- Nothing is made that is not needed for the copies to stand where their paths lead. -/
theorem least {fs : FileSystem} (hu : u.files.Outlines fs) (hfs : fs.Outlines F)
    (hdirs : ∀ c ∈ cs, ∃ r, fs.find u.cwd .look (Path.parent (c.path base)) = .ok (.found r .directory))
    (hfiles : ∀ c ∈ cs, ∃ t, fs.lookup (c.place D) = some (.file t)) : w.files.Outlines fs := by
  induction h with
  | nil hsame => exact hsame ▸ hu
  | cons h hrest ih =>
    obtain ⟨hc, hcs⟩ := List.forall_mem_cons.1 hplain
    obtain ⟨⟨r, hr⟩, hdirs⟩ := List.forall_mem_cons.1 hdirs
    obtain ⟨ht, hfiles⟩ := List.forall_mem_cons.1 hfiles
    obtain ⟨d, n, hl⟩ := h.landing hc (hrest.outlines.trans hF) hfield
    exact ih hcs hF (h.cwd.symm ▸ hfield) (hl.least fs r hu hfs hr (hl.place ▸ ht)) (h.cwd.symm ▸ hdirs)
      hfiles

/-- Each text was read on a host in between. -/
theorem read : ∀ c ∈ cs, '\x00' ∉ c.source ∧ ∃ x : Host, x.cwd = u.cwd ∧ u.files.Outlines x.files ∧
    FileSystem.ChangedAt (cs.map (Copy.place D)) u.files x.files ∧
    x.files.read u.cwd c.source = .ok (.text c.text) := by
  induction h with
  | nil => simp
  | @cons u v w c cs h hrest ih =>
    obtain ⟨hc, hcs⟩ := List.forall_mem_cons.1 hplain
    refine List.forall_mem_cons.2 ⟨⟨h.nul, u, rfl, .refl _, .refl _ _, h.read⟩, ?_⟩
    intro c' hc'
    obtain ⟨hnul, x, hx, hout, hchanged, hread⟩ := ih hcs hF (h.cwd.symm ▸ hfield) c' hc'
    obtain ⟨d, n, hl⟩ := h.landing hc (hrest.outlines.trans hF) hfield
    refine ⟨hnul, x, hx.trans h.cwd, h.outlines.trans hout, ?_, h.cwd ▸ hread⟩
    rw [List.map_cons, hl.place]
    exact (hl.changed.mono (by simp)).trans (hchanged.mono (by simp))

end

/-- Once some files are copied the base leads somewhere. -/
theorem leads (h : Transfers base u cs w) (hplain : ∀ c ∈ cs, c.Plain) (hne : cs ≠ []) :
    ∃ D via, w.files.Leads (startOf u.cwd base) (pathNames base) via D := by
  cases h with
  | nil => exact absurd rfl hne
  | cons h hrest =>
    obtain ⟨D, via, hv⟩ := h.leads (hplain _ List.mem_cons_self)
    exact ⟨D, via, hrest.outlines.leads hv⟩

end Transfers

/-! ### The files of a package -/

section Package

variable {p : Package} {names : List Text}

theorem prepare_transfer {e : Declaration} (hback : ∀ n ∈ names, '\\' ∉ n)
    (h : u.perform (prepare p base (Path.ofSegments names)) = (.ok e, v)) :
    ∃ t, Manifest.entry e.home e.relPath = (Copy.mk p names t).entry ∧ Transfer base ⟨p, names, t⟩ u v := by
  obtain ⟨t, w, hnul, hread, rfl, hwrite, l, rfl⟩ := prepare_stages h
  obtain ⟨⟨⟩, x, hmake, hfill⟩ := Host.perform_bind_ok hwrite
  obtain ⟨q, y, hcreate, hfill⟩ := Host.perform_bind_ok hfill
  rw [Host.perform_write] at hfill
  cases hfill
  have hcwd : y.cwd = u.cwd := by
    obtain ⟨-, rfl⟩ := Host.lookup_of_create hcreate
    have hmade := (makeDirectories_changed u (Path.parent ((Copy.mk p names t).path base))).1
    rwa [show u.perform (makeDirectories (Path.parent ((Copy.mk p names t).path base))) = _ from hmake] at hmade
  refine ⟨t, ?_, hnul, hread, hcwd, u, x, y, q, rfl, rfl, hmake, hcreate, rfl⟩
  show Manifest.entry p.home (Path.ofSegments names).slashed = _
  rw [slashed_ofSegments hback]
  rfl

/-- The files of a list are copied in its order. -/
theorem mapM_prepare_transfers {P : List Text → Prop} {rels : List Text} {ds : List Declaration}
    (hback : ∀ names, P names → ∀ n ∈ names, '\\' ∉ n)
    (hrels : ∀ rel ∈ rels, ∃ names, P names ∧ Path.ofSegments names = rel)
    (h : u.perform (rels.mapM (prepare p base)) = (.ok ds, v)) :
    ∃ cs : List Copy, cs.map Copy.rel = rels ∧ (∀ c ∈ cs, c.package = p ∧ P c.names) ∧
      ds.map (fun d => Manifest.entry d.home d.relPath) = cs.map Copy.entry ∧ Transfers base u cs v := by
  induction rels generalizing u ds with
  | nil =>
    cases h
    exact ⟨[], rfl, by simp, rfl, .nil rfl rfl⟩
  | cons rel rels ih =>
    rw [List.mapM_cons] at h
    obtain ⟨d, w, hprep, hrest⟩ := Host.perform_bind_ok h
    obtain ⟨ds, w', htail, hpure⟩ := Host.perform_bind_ok hrest
    cases hpure
    obtain ⟨⟨names, hnames, rfl⟩, hmore⟩ := List.forall_mem_cons.1 hrels
    obtain ⟨t, hentry, htransfer⟩ := prepare_transfer (hback names hnames) hprep
    obtain ⟨cs, rfl, hcs, hds, htransfers⟩ := ih hmore htail
    refine ⟨⟨p, names, t⟩ :: cs, rfl, List.forall_mem_cons.2 ⟨⟨rfl, hnames⟩, hcs⟩, ?_, .cons htransfer htransfers⟩
    rw [List.map_cons, List.map_cons, hentry, hds]

end Package

end Build

end Rehome
