import Rehome.Proofs.Build.Slot

/-! All that changes when a text is written to a path, whether or not that succeeds. Directories are made from
the outermost missing ancestor of the path on, and making any of them may fail. Whatever has been done by
then, nothing is new but directories to which ancestors of the path lead. -/

namespace Rehome

open FileSystem (pathNames startOf Outlines)
open Rehome.Path (IsPlain IsNormal)

namespace Path

/-- The directories that a path lies in, as it spells them, the innermost first. A root lies in itself. -/
inductive IsAncestor (path : Text) : Text → Prop where
  | parent : IsAncestor path (Path.parent path)
  | up {a : Text} (h : IsAncestor path a) : IsAncestor path (Path.parent a)

namespace IsAncestor

variable {path a : Text}

theorem isPrefix (h : IsAncestor path a) : a <+: path := by
  induction h with
  | parent => exact FileSystem.split_fst_isPrefix path
  | up _ ih => exact (FileSystem.split_fst_isPrefix _).trans ih

/-- An ancestor has the first names of the parent, if not all of them. -/
theorem exists_pathNames (h : IsAncestor path a) : ∃ ns, pathNames (Path.parent path) = pathNames a ++ ns := by
  induction h with
  | parent => exact ⟨[], (List.append_nil _).symm⟩
  | @up a _ ih =>
    obtain ⟨ns, hns⟩ := ih
    refine ⟨pathNames (Path.split a).2 ++ ns, ?_⟩
    rw [hns, FileSystem.pathNames_split a, List.append_assoc]
    rfl

/-- The next directory that is made on the way to an ancestor is one, too. -/
theorem lastStep (h : IsAncestor path a) : IsAncestor path (Build.lastStep a).1 := by
  rcases Build.lastStep_eq a with he | he <;> rw [he]
  · exact h.up
  · exact h.up.up

end IsAncestor

/-- A normal path goes along plain names only. -/
theorem IsNormal.isPlain {path : Text} (h : IsNormal path) : ∀ n ∈ pathNames path, IsPlain n := by
  obtain ⟨a, st, hst, -, rfl⟩ := h.exists_stack
  rw [FileSystem.pathNames_ofStack hst]
  exact hst.plain_reverse

end Path

open Rehome.Path (IsAncestor)

namespace FileSystem

variable {fs fs' u : FileSystem} {cwd d q : Location} {path a n t : Text}

/-- At `q` nothing was in `fs`. A directory stands there in `fs'`, to which a missing ancestor of the path
leads. -/
structure MadeOnWay (cwd : Location) (path : Text) (fs fs' : FileSystem) (q : Location) : Prop where
  missing : fs.lookup q = none
  directory : fs'.lookup q = some .directory
  ancestor : ∃ a, IsAncestor path a ∧ fs.exists cwd a = false ∧
    fs'.find cwd .look a = .ok (.found q .directory)

/-- From `fs` to `fs'` nothing changed, but for directories that were made at missing ancestors of the path. -/
def Paved (cwd : Location) (path : Text) (fs fs' : FileSystem) : Prop :=
  ∀ q, fs'.lookup q = fs.lookup q ∨ MadeOnWay cwd path fs fs' q

theorem MadeOnWay.mono (h : MadeOnWay cwd path fs u q) (hout : u.Outlines fs') : MadeOnWay cwd path fs fs' q := by
  obtain ⟨a, ha, hmissing, hfound⟩ := h.ancestor
  exact ⟨h.missing, hout.directory h.directory, a, ha, hmissing, hout.find_directory hfound⟩

namespace Paved

theorem refl (cwd : Location) (path : Text) (fs : FileSystem) : Paved cwd path fs fs := fun _ => .inl rfl

theorem «extends» (h : Paved cwd path fs fs') : fs.Extends fs' := by
  intro q x hq
  rcases h q with he | hmade
  · exact he.trans hq
  · rw [hmade.missing] at hq
    cases hq

/-- Every link was there before. -/
theorem lookup_link (h : Paved cwd path fs fs') (hq : fs'.lookup q = some (.link t)) :
    fs.lookup q = some (.link t) := by
  rcases h q with he | hmade
  · exact he.symm.trans hq
  · rw [hmade.directory] at hq
    cases hq

/-- One more ancestor, where it is missing. -/
theorem put (h : Paved cwd path fs u) (ha : IsAncestor path a)
    (habsent : u.find cwd .nameEntry a = .ok (.absent d n)) (hn : IsName n) :
    Paved cwd path fs (u.put d n .directory) := by
  have hout : u.Outlines (u.put d n .directory) := .of_extends (Leaf.made habsent hn).extends
  have hdir := Leaf.lookup_made habsent hn
  obtain ⟨-, -, -, -, hnone, -⟩ := find_nameEntry_absent_iff.1 habsent
  intro q
  by_cases hq : q = n :: d
  swap
  · rw [lookup_put_of_ne hq]
    exact (h q).imp_right (·.mono hout)
  subst hq
  refine .inr ⟨?_, hdir, a, ha, ?_, Leaf.found_of_absent habsent hout hdir⟩
  · by_contra hne
    obtain ⟨x, hx⟩ := Option.ne_none_iff_exists'.1 hne
    rw [h.extends _ x hx] at hnone
    cases hnone
  · -- What was found there at first would be there still.
    rw [Bool.eq_false_iff]
    intro hexists
    obtain ⟨q, x, hf⟩ := exists_eq_true_iff.1 hexists
    exact find_ne_found_of_absent habsent (find_extends h.extends hf)

end Paved

/-- The text stands at `p`, wherever one looks from along the path, and apart from that place the way to it
was paved. -/
structure Deposited (cwd : Location) (path t : Text) (fs fs' : FileSystem) (p : Location) : Prop where
  found : ∀ purpose, fs'.find cwd purpose path = .ok (.found p (.file (.text t)))
  changed : ∀ q, q ≠ p → fs'.lookup q = fs.lookup q ∨ MadeOnWay cwd path fs fs' q

/-- The way leads to a directory, and the text comes to a file there. -/
theorem Paved.deposited (h : Paved cwd path fs u) (habs : Path.isAbsolute path = true)
    (hsize : path.byteSize ≤ maxPathBytes) (hslash : Path.endsInSlash path = false)
    (hnames : pathNames path = pathNames (Path.parent path) ++ [n]) (hn : IsName n)
    (hbytes : n.byteSize ≤ maxNameBytes)
    (hd : u.find cwd .look (Path.parent path) = .ok (.found d .directory))
    (hfree : u.lookup (n :: d) = none ∨ ∃ c, u.lookup (n :: d) = some (.file c)) :
    fs.Outlines ((u.putFile (n :: d) (.text [])).putFile (n :: d) (.text t)) ∧
      Deposited cwd path t fs ((u.putFile (n :: d) (.text [])).putFile (n :: d) (.text t)) (n :: d) := by
  obtain ⟨-, -, via, hlen, hv⟩ := find_look_directory_iff.1 hd
  rw [startOf_of_isAbsolute (isAbsolute_parent habs)] at hv
  have hroom : u.HasRoom d n := .of_free hn (hv.lookup_eq rfl) hfree
  have hfill := filled_putFile (t := t) hroom fun _ => .inl rfl
  have hout : u.Outlines ((u.putFile (n :: d) (.text [])).putFile (n :: d) (.text t)) :=
    (Outlines.putFile hfree).trans (.putFile (.inr ⟨_, lookup_put_self hroom⟩))
  refine ⟨(Outlines.of_extends h.extends).trans hout, fun purpose => ?_, fun q hq => ?_⟩
  · have hne : path ≠ [] := by
      rintro rfl
      cases habs
    rw [find_eq_walk hne hsize, hslash, startOf_of_isAbsolute habs, hnames,
      walk_append (hout.leads hv) hlen (List.cons_ne_nil n [])]
    exact walk_file hn.2.1 hn.2.2.1 hbytes hfill.file
  · have hq' : ((u.putFile (n :: d) (.text [])).putFile (n :: d) (.text t)).lookup q = u.lookup q :=
      (lookup_put_of_ne hq).trans (lookup_put_of_ne hq)
    rw [hq']
    exact (h q).imp_right (·.mono hout)

end FileSystem

open FileSystem (Paved Deposited)

namespace Host

variable {fs : FileSystem} {cwd : Location} {path a : Text} {u : Host}

/-- Making an ancestor keeps to the way. -/
theorem paved_makeDirectory (hcwd : u.cwd = cwd) (h : Paved cwd path fs u.files) (ha : IsAncestor path a) :
    Paved cwd path fs (u.answer (.makeDirectory a)).2.files := by
  rcases u.answer_makeDirectory a with ⟨e, he⟩ | ⟨d, n, hnul, hf, he⟩ <;> rw [he]
  · exact h
  · obtain ⟨-, -, hn, -, -, -, init, via, hnames, -⟩ := FileSystem.find_nameEntry_absent_iff.1 hf
    exact h.put ha (hcwd ▸ hf) (isName_of_mem_pathNames hn.ne_here hn.ne_up (by simp [hnames]) hnul)

end Host

namespace Build

variable {s s' u : Host} {path a t n l : Text} {d : Location}

/-- However far one gets with an ancestor and those before it, only missing ancestors are made. -/
theorem makeDirectories_paved (s : Host) (ha : IsAncestor path a) :
    (s.perform (makeDirectories a)).2.cwd = s.cwd ∧
      Paved s.cwd path s.files (s.perform (makeDirectories a)).2.files := by
  have hkeeps : (makeDirectories a).Keeps
      (fun u => u.cwd = s.cwd ∧ Paved s.cwd path s.files u.files) fun _ => True := by
    refine makeDirectories_keeps (P := IsAncestor path) (fun a ha _ => ha.lastStep) ?_ ha
    intro a ha u ⟨hcwd, hu⟩
    exact ⟨(u.answer_makeDirectory_cwd a).trans hcwd, Host.paved_makeDirectory hcwd hu ha⟩
  exact (Host.run_keeps hkeeps ⟨rfl, Paved.refl s.cwd path s.files⟩).1

/-- A link that stands, once its directory is made, at the end of a normal path stood there before. -/
theorem find_link_of_makeDirectories (hpath : IsNormal path)
    (hnames : pathNames path = pathNames (Path.parent path) ++ [n]) (hn : IsPlain n)
    (hbytes : n.byteSize ≤ FileSystem.maxNameBytes) (hsize : path.byteSize ≤ FileSystem.maxPathBytes)
    (hslash : Path.endsInSlash path = false)
    (h : s.perform (makeDirectories (Path.parent path)) = (.ok (), u))
    (hd : u.files.find u.cwd .look (Path.parent path) = .ok (.found d .directory))
    (hl : u.files.lookup (n :: d) = some (.link l)) :
    s.files.find s.cwd .lookAtLink path = .ok (.found (n :: d) (.link l)) := by
  have habs := FileSystem.isAbsolute_parent hpath.isAbsolute
  obtain ⟨-, hpaved⟩ := makeDirectories_paved s (.parent : IsAncestor path _)
  rw [h] at hpaved
  have hlink : s.files.lookup (n :: d) = some (.link l) := hpaved.lookup_link hl
  obtain ⟨hne, -, via, hlen, hv⟩ := FileSystem.find_look_directory_iff.1 hd
  rw [FileSystem.startOf_of_isAbsolute habs] at hv
  -- The directory of the link was there, so the names before the last one led there already.
  have hleads : s.files.Leads [] (pathNames (Path.parent path)) via d := by
    have hplain : ∀ k ∈ pathNames (Path.parent path), IsPlain k := fun k hk =>
      hpath.isPlain k (hnames ▸ List.mem_append_left _ hk)
    have hgrown := makeDirectories_grown (s := s) hplain habs List.prefix_rfl
    rw [h] at hgrown
    rcases hgrown with he | ⟨P, hP, hgrown⟩
    · exact he ▸ hv
    · obtain rfl : P = d := hgrown.site.unique hv.site
      obtain ⟨via', hv'⟩ := hP.leads (by simp [FileSystem.lookup_parent hlink])
      obtain ⟨rfl, -⟩ := (hv'.of_extends hpaved.extends).deterministic hv
      exact hv'
  have hne' : path ≠ [] := fun hnil => hne (by rw [hnil]; rfl)
  rw [FileSystem.find_eq_walk hne' hsize, hslash, FileSystem.startOf_of_isAbsolute hpath.isAbsolute, hnames,
    FileSystem.walk_append hleads hlen (List.cons_ne_nil n [])]
  exact FileSystem.walk_lookAtLink_link hn.ne_here hn.ne_up hbytes hlink

/-- A text that was written to a normal path stands there, unless the path was that of a link. -/
theorem writeText_deposited (hpath : IsNormal path)
    (hlink : ∀ p l, s.files.find s.cwd .lookAtLink path ≠ .ok (.found p (.link l)))
    (h : s.perform (writeText path t) = (.ok (), s')) :
    pathNames path = pathNames (Path.parent path) ++ [Path.fileName path] ∧ s.files.Outlines s'.files ∧
      ∃ p, Deposited s.cwd path t s.files s'.files p := by
  obtain ⟨⟨⟩, u, hmake, h⟩ := Host.perform_bind_ok h
  obtain ⟨p, v, hcreate, h⟩ := Host.perform_bind_ok h
  rw [Host.perform_create] at hcreate
  rw [Host.perform_write] at h
  cases h
  obtain ⟨hcwd, hpaved⟩ := makeDirectories_paved s (.parent : IsAncestor path _)
  rw [hmake] at hcwd hpaved
  obtain ⟨hnul, hnames, d, hd⟩ := Host.parent_of_create hcreate hpath.isAbsolute
  have hn : IsPlain (Path.fileName path) := hpath.isPlain _ (by simp [hnames])
  have hstart : startOf u.cwd path = startOf u.cwd (Path.parent path) := by
    rw [FileSystem.startOf_of_isAbsolute hpath.isAbsolute,
      FileSystem.startOf_of_isAbsolute (FileSystem.isAbsolute_parent hpath.isAbsolute)]
  obtain ⟨hbytes, hsize, hslash, hp⟩ := Host.create_below hcreate hnames hstart hn hd
  obtain rfl := hp fun l hl =>
    hlink _ l (find_link_of_makeDirectories hpath hnames hn hbytes hsize hslash hmake hd hl)
  obtain ⟨hfree, rfl⟩ := Host.lookup_of_create hcreate
  have hname := Host.isName_of_mem_pathNames hn.ne_here hn.ne_up (by simp [hnames]) hnul
  have hd' : u.files.find s.cwd .look (Path.parent path) = .ok (.found d .directory) := hcwd ▸ hd
  obtain ⟨hout, hdeposited⟩ :=
    Paved.deposited (t := t) hpaved hpath.isAbsolute hsize hslash hnames hname hbytes hd' hfree
  exact ⟨hnames, hout, _, hdeposited⟩

/-- No text is written to a directory, or below a file. -/
theorem writeText_refused (hpath : IsNormal path)
    (hlink : ∀ p l, s.files.find s.cwd .lookAtLink path ≠ .ok (.found p (.link l)))
    (h : (∃ q, s.files.find s.cwd .look path = .ok (.found q .directory)) ∨
      ∃ a q c, IsAncestor path a ∧ s.files.find s.cwd .look a = .ok (.found q (.file c))) :
    ∃ f s', s.perform (writeText path t) = (.error f, s') := by
  rcases hrun : s.perform (writeText path t) with ⟨f | ⟨⟩, s'⟩
  · exact ⟨f, s', rfl⟩
  -- Otherwise the text would be found, and directories at all ancestors.
  obtain ⟨hnames, hout, p, hdeposited⟩ := writeText_deposited hpath hlink hrun
  have hfound := hdeposited.found .look
  rcases h with ⟨q, hq⟩ | ⟨a, q, c, ha, hq⟩
  · rw [hout.find_directory hq] at hfound
    cases hfound
  · obtain ⟨ns, hns⟩ := ha.exists_pathNames
    rw [hns, List.append_assoc] at hnames
    obtain ⟨d, hd⟩ := FileSystem.find_of_isPrefix hfound ha.isPrefix (FileSystem.find_ok hq).1 hnames (by simp)
    obtain ⟨-, hdir⟩ := hout.find_of_directory hd hq
    cases hdir

/-- What the writing of a text leaves at a normal path that is not a link. Either the text is there, or there
was a reason to fail; in both cases nothing else is new but directories at missing ancestors of the path,
and nothing that was there has changed. -/
theorem writeText_leaves (hpath : IsNormal path)
    (hlink : ∀ p l, s.files.find s.cwd .lookAtLink path ≠ .ok (.found p (.link l))) :
    (∀ s', s.perform (writeText path t) = (.ok (), s') → ∃ p, Deposited s.cwd path t s.files s'.files p) ∧
      (∀ f s', s.perform (writeText path t) = (.error f, s') → Paved s.cwd path s.files s'.files) ∧
      ((∃ q, s.files.find s.cwd .look path = .ok (.found q .directory)) ∨
          (∃ a q c, IsAncestor path a ∧ s.files.find s.cwd .look a = .ok (.found q (.file c))) →
        ∃ f s', s.perform (writeText path t) = (.error f, s')) := by
  refine ⟨fun s' h => ?_, fun f s' h => ?_, writeText_refused hpath hlink⟩
  · obtain ⟨-, -, hdeposited⟩ := writeText_deposited hpath hlink h
    exact hdeposited
  · rw [writeText_error h]
    exact (makeDirectories_paved s .parent).2

/-- Below a link to a directory a file is written with two directories on the way, and below a file none is. -/
theorem writeText_leaves_workshop :
    (∃ s' p, workshop.perform (writeText "/w/src/new/deep/a.d.ts".toList "A".toList) = (.ok (), s') ∧
      Deposited workshop.cwd "/w/src/new/deep/a.d.ts".toList "A".toList workshop.files s'.files p) ∧
    ∃ f s', workshop.perform (writeText "/w/own/y.d.ts/deep/a.d.ts".toList "A".toList) = (.error f, s') ∧
      Paved workshop.cwd "/w/own/y.d.ts/deep/a.d.ts".toList workshop.files s'.files := by
  have hsrc : workshop.files.find workshop.cwd .lookAtLink "/w/src/new/deep/a.d.ts".toList =
      .error .notFound := by
    decide +kernel
  have hown : workshop.files.find workshop.cwd .lookAtLink "/w/own/y.d.ts/deep/a.d.ts".toList =
      .error .notDirectory := by
    decide +kernel
  have hpath : IsNormal "/w/src/new/deep/a.d.ts".toList := ⟨by decide, by decide⟩
  have hpath' : IsNormal "/w/own/y.d.ts/deep/a.d.ts".toList := ⟨by decide, by decide⟩
  obtain ⟨hok, -⟩ := writeText_leaves (s := workshop) (t := "A".toList) hpath fun p l h => by
    rw [hsrc] at h
    cases h
  obtain ⟨-, herror, hrefused⟩ := writeText_leaves (s := workshop) (t := "A".toList) hpath' fun p l h => by
    rw [hown] at h
    cases h
  have hwritten : (workshop.perform (writeText "/w/src/new/deep/a.d.ts".toList "A".toList)).1 = .ok () := by
    decide +kernel
  have hfile : workshop.files.find workshop.cwd .look "/w/own/y.d.ts".toList =
      .ok (.found ["y.d.ts".toList, "own".toList, "w".toList] (.file (.text []))) := by
    decide +kernel
  have hancestor : IsAncestor "/w/own/y.d.ts/deep/a.d.ts".toList "/w/own/y.d.ts".toList := .up .parent
  obtain ⟨p, hp⟩ := hok _ (Prod.ext hwritten rfl)
  obtain ⟨f, s', hs'⟩ := hrefused (.inr ⟨_, _, _, hancestor, hfile⟩)
  exact ⟨⟨_, p, Prod.ext hwritten rfl, hp⟩, f, s', hs', herror f s' hs'⟩

end Build

end Rehome
