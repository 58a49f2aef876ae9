import Rehome.Proofs.Build.Writing

/-! Directories that can be made. Where a path leads to a directory in a file system that has more, its
directories can be made in one that has less, as long as only plain names are missing at its end. -/

namespace Rehome

open FileSystem (pathNames startOf)
open Rehome.Path (IsPlain)

namespace Build

variable {s : Host} {path : Text} {d q : Location} {n : Text}

/-- A directory that is there need not be made. -/
theorem makeLeaf_there (hnul : '\x00' ∉ path)
    (h : s.files.find s.cwd .look path = .ok (.found q .directory)) :
    s.perform (makeLeaf path) = (.ok (), s) := by
  have hdir : s.files.isDirectory s.cwd path = true :=
    FileSystem.isDirectory_eq_true_iff.2 ⟨q, h⟩
  obtain ⟨e, he⟩ : ∃ e, s.files.makeDirectory s.cwd path = .error e := by
    unfold FileSystem.makeDirectory
    split
    · next d n hf =>
      obtain ⟨init, via, hnames, hv, hn, -, hnone⟩ := FileSystem.leads_of_absent hf
      obtain ⟨via', -, hv'⟩ := FileSystem.leads_of_find h
      rw [hnames] at hv'
      obtain ⟨d', v₁, v₂, -, h₁, h₂⟩ := hv'.split
      obtain ⟨-, rfl⟩ := h₁.deterministic hv
      exact absurd hnone (h₂.ne_none hn)
    · exact ⟨_, rfl⟩
    · exact ⟨_, rfl⟩
  have hmake : s.perform (Action.makeDirectory path) = (.error (.system e path), s) := by
    rw [Host.perform_makeDirectory]
    simp [Host.answer, Host.onPath, hnul, he, Except.map]
  rw [makeLeaf, Host.perform_tryCatch, hmake]
  dsimp only
  rw [Host.perform_bind, Host.perform_isDirectory, hdir]
  rfl

/-- A directory whose name is missing is made. -/
theorem makeLeaf_missing (hnul : '\x00' ∉ path)
    (h : s.files.find s.cwd .nameEntry path = .ok (.absent d n)) :
    s.perform (makeLeaf path) = (.ok (), { s with files := s.files.put d n .directory }) := by
  have hmake : s.perform (Action.makeDirectory path) =
      (.ok (), { s with files := s.files.put d n .directory }) := by
    rw [Host.perform_makeDirectory]
    simp [Host.answer, Host.onPath, hnul, FileSystem.makeDirectory, h, Except.map]
  rw [makeLeaf, Host.perform_tryCatch, hmake]

theorem pathNames_lastStep (h : (lastStep path).2 ≠ []) :
    pathNames path = pathNames (lastStep path).1 ++ [(lastStep path).2] := by
  unfold lastStep at h ⊢
  split at h
  · next head hs =>
    have hhead : pathNames path = pathNames head := by
      rw [FileSystem.pathNames_split path, hs]
      exact List.append_nil _
    rw [hhead]
    exact FileSystem.pathNames_eq_append_fileName h
  · exact FileSystem.pathNames_eq_append_fileName h

/-- Only of a root no last step is taken. -/
theorem pathNames_eq_nil_of_lastStep (habs : Path.isAbsolute path = true)
    (h : ¬ ((lastStep path).1 ≠ [] ∧ (lastStep path).2 ≠ [])) : pathNames path = [] := by
  have hfst : (lastStep path).1 ≠ [] := by
    rcases lastStep_eq path with he | he <;> rw [he]
    · exact FileSystem.split_fst_ne_nil habs
    · refine FileSystem.split_fst_ne_nil ?_
      rwa [FileSystem.isAbsolute_of_isPrefix (FileSystem.split_fst_isPrefix path)
        (FileSystem.split_fst_ne_nil habs)]
  have hsnd : (lastStep path).2 = [] := by
    by_contra hne
    exact h ⟨hfst, hne⟩
  unfold lastStep at hsnd
  split at hsnd
  · next head hs =>
    rcases FileSystem.split_cases path with ⟨he, hroot⟩ | ⟨hne, hend⟩
    · rw [hs, List.append_nil] at he
      rw [hs] at hroot
      rw [he, ← List.nil_append head, FileSystem.pathNames_append_slashes [] hroot]
      rfl
    · rw [hs] at hne hend
      obtain ⟨head', -, he, -, hslash, -⟩ := FileSystem.eq_split head
      rw [hsnd, List.append_nil] at he
      subst he
      rcases hslash with hnil | hslash
      · exact absurd hnil hne
      · rw [hend] at hslash
        cases hslash
  · next hs =>
    have he : Path.split path = ((Path.split path).1, []) := Prod.ext rfl hsnd
    exact absurd he (hs _)

/-- The names of an absolute path lead somewhere in `fs`, apart from plain names `rest` at their end. In
`fs'`, which has more, all of them lead to a directory, the last ones straight down. -/
structure Attainable (fs fs' : FileSystem) (path : Text) (rest : List Text) (p : Location) : Prop where
  isAbsolute : Path.isAbsolute path = true
  nul : '\x00' ∉ path
  «extends» : fs.Extends fs'
  leads : ∃ init via, pathNames path = init ++ rest ∧ fs.Leads [] init via p
  plain : ∀ n ∈ rest, IsPlain n
  found : fs'.find [] .look path = .ok (.found (rest.reverse ++ p) .directory)

/-- A host in between, on which the path leads to the directory. -/
def Attained (s : Host) (fs' : FileSystem) (path : Text) (q : Location) (t : Host) : Prop :=
  t.cwd = s.cwd ∧ s.files.Extends t.files ∧ t.files.Extends fs' ∧
    t.files.find [] .look path = .ok (.found q .directory)

/-- The last directory is made where the others are. -/
theorem makeLeaf_attained {fs' : FileSystem} {head : Text} (habs : Path.isAbsolute path = true)
    (hnul : '\x00' ∉ path) (hn : IsPlain n) (hnames : pathNames path = pathNames head ++ [n])
    (hext : s.files.Extends fs') (hhead : Path.isAbsolute head = true)
    (hs : s.files.find [] .look head = .ok (.found d .directory))
    (hfound : fs'.find [] .look path = .ok (.found (n :: d) .directory)) :
    ∃ t, s.perform (makeLeaf path) = (.ok (), t) ∧ Attained s fs' path (n :: d) t := by
  obtain ⟨hne, hsize, via', hlen', hv'⟩ := FileSystem.find_look_directory_iff.1 hfound
  obtain ⟨via, hlen, hv⟩ := FileSystem.leads_of_find hs
  rw [FileSystem.startOf_of_isAbsolute habs] at hv'
  rw [FileSystem.startOf_of_isAbsolute hhead] at hv
  have hdir : fs'.lookup (n :: d) = some .directory := hv'.lookup_eq rfl
  have hd : s.files.lookup d = some .directory := hv.lookup_eq rfl
  have hbytes : n.byteSize ≤ FileSystem.maxNameBytes :=
    hv'.byteSize_le n (by simp [hnames]) hn.ne_here hn.ne_up
  have hstart : startOf s.cwd path = [] := FileSystem.startOf_of_isAbsolute habs
  -- Once the last directory stands where it does in `fs'`, the path leads there in as many links.
  have hlook : ∀ fs : FileSystem, s.files.Extends fs → fs.lookup (n :: d) = some .directory →
      ∀ cwd, fs.find cwd .look path = .ok (.found (n :: d) .directory) := by
    intro fs hfs hl cwd
    refine FileSystem.find_look_directory_iff.2 ⟨hne, hsize, via ++ [], by simpa using hlen, ?_⟩
    rw [FileSystem.startOf_of_isAbsolute habs, hnames]
    exact (hv.of_extends hfs).append (.down hn.ne_here hn.ne_up hbytes hl (.nil _))
  cases hl : s.files.lookup (n :: d) with
  | some x =>
    have hx := hext _ _ hl
    rw [hdir] at hx
    rw [← hx] at hl
    refine ⟨s, makeLeaf_there hnul (hlook _ (fun _ _ h => h) hl s.cwd), rfl, fun _ _ h => h, hext, ?_⟩
    exact hlook _ (fun _ _ h => h) hl []
  | none =>
    have hroom : s.files.HasRoom d n :=
      ⟨Host.isName_of_mem_pathNames hn.ne_here hn.ne_up (by simp [hnames]) hnul, hd, by simp [hl]⟩
    have hmiss : s.files.find s.cwd .nameEntry path = .ok (.absent d n) := by
      rw [FileSystem.find_eq_walk hne hsize, hstart, hnames,
        FileSystem.walk_append hv hlen (List.cons_ne_nil n [])]
      refine FileSystem.walk_of_stop ?_
      rw [FileSystem.stride_name hn.ne_here hn.ne_up (by simp) hbytes, hl]
      simp [hd]
    have hput : s.files.Extends (s.files.put d n .directory) := by
      intro q x hq
      refine (FileSystem.lookup_put_of_ne ?_).trans hq
      rintro rfl
      rw [hl] at hq
      cases hq
    refine ⟨_, makeLeaf_missing hnul hmiss, rfl, hput, fun q x hq => ?_, ?_⟩
    · by_cases he : q = n :: d
      · subst he
        rw [FileSystem.lookup_put_self hroom] at hq
        rwa [← Option.some.inj hq]
      · rw [FileSystem.lookup_put_of_ne he] at hq
        exact hext q x hq
    · exact hlook _ hput (FileSystem.lookup_put_self hroom) []

theorem perform_makeDirectories (s : Host) (h : (lastStep path).1 ≠ [] ∧ (lastStep path).2 ≠ []) :
    s.perform (makeDirectories path) =
      if s.files.exists s.cwd (lastStep path).1 then s.perform (makeLeaf path)
      else s.perform (do
        unlessThere (makeDirectories (lastStep path).1)
        if (lastStep path).2 = Path.here then pure () else makeLeaf path) := by
  conv_lhs => unfold makeDirectories
  dsimp only
  rw [dif_pos h, Host.perform_bind, Host.perform_exists]
  dsimp only
  split <;> rfl

/-- Nothing is made where all the directories are there. -/
theorem makeDirectories_there (hnul : '\x00' ∉ path)
    (h : s.files.find s.cwd .look path = .ok (.found q .directory)) :
    s.perform (makeDirectories path) = (.ok (), s) := by
  by_cases hstep : (lastStep path).1 ≠ [] ∧ (lastStep path).2 ≠ []
  · obtain ⟨d, hd⟩ := FileSystem.find_of_isPrefix h (lastStep_fst_isPrefix path) hstep.1
      (pathNames_lastStep hstep.2) (List.cons_ne_nil _ _)
    rw [perform_makeDirectories s hstep, if_pos (FileSystem.exists_eq_true_iff.2 ⟨d, _, hd⟩)]
    exact makeLeaf_there hnul h
  · have hleaf : makeDirectories path = makeLeaf path := by
      conv_lhs => unfold makeDirectories
      exact dif_neg hstep
    rw [hleaf]
    exact makeLeaf_there hnul h

namespace Attainable

variable {fs fs' : FileSystem} {rest : List Text} {p : Location}

/-- With all names of a path those before the last are attainable. -/
theorem head (h : Attainable fs fs' path (rest ++ [n]) p)
    (hstep : (lastStep path).1 ≠ [] ∧ (lastStep path).2 ≠ []) :
    n = (lastStep path).2 ∧ Attainable fs fs' (lastStep path).1 rest p := by
  obtain ⟨init, via, hnames, hv⟩ := h.leads
  have hpre := lastStep_fst_isPrefix path
  have hlast := pathNames_lastStep hstep.2
  have habs := (FileSystem.isAbsolute_of_isPrefix hpre hstep.1).trans h.isAbsolute
  obtain ⟨D, hD⟩ := FileSystem.find_of_isPrefix h.found hpre hstep.1 hlast (List.cons_ne_nil _ _)
  obtain ⟨-, -, via', -, hv'⟩ := FileSystem.find_look_directory_iff.1 h.found
  rw [hnames, ← List.append_assoc] at hlast
  obtain ⟨hhead, hn⟩ := List.append_inj' hlast rfl
  refine ⟨List.singleton_inj.1 hn, habs, fun hc => h.nul (hpre.subset hc), h.extends,
    ⟨init, via, hhead.symm, hv⟩, fun k hk => h.plain k (List.mem_append_left _ hk), ?_⟩
  obtain ⟨viaD, -, hvD⟩ := FileSystem.leads_of_find hD
  rw [FileSystem.startOf_of_isAbsolute habs, ← hhead] at hvD
  obtain ⟨p', v₁, v₂, -, h₁, h₂⟩ := hvD.split
  obtain ⟨-, rfl⟩ := h₁.deterministic (hv.of_extends h.extends)
  have hdir : fs'.lookup ((rest ++ [n]).reverse ++ p') = some .directory := by
    rw [FileSystem.startOf_of_isAbsolute h.isAbsolute] at hv'
    exact hv'.lookup_eq rfl
  rw [List.reverse_append] at hdir
  obtain ⟨-, rfl⟩ := h₂.straight (fun k hk => h.plain k (List.mem_append_left _ hk))
    (FileSystem.lookup_parent hdir)
  exact hD

end Attainable

/-- What is attainable is attained by making the directories. -/
theorem makeDirectories_attained {path : Text} {fs' : FileSystem} {rest : List Text} {p : Location}
    (h : Attainable s.files fs' path rest p) :
    ∃ t, s.perform (makeDirectories path) = (.ok (), t) ∧ Attained s fs' path (rest.reverse ++ p) t := by
  have hcwd : ∀ (fs : FileSystem) (head : Text), Path.isAbsolute head = true →
      fs.find s.cwd .look head = fs.find [] .look head := fun fs head habs => by
    simp [FileSystem.find, habs]
  obtain ⟨init, via, hnames, hv⟩ := h.leads
  rcases List.eq_nil_or_concat rest with rfl | ⟨rest, n, rfl⟩
  · obtain ⟨hne, hsize, via', hlen, hv'⟩ := FileSystem.find_look_directory_iff.1 h.found
    rw [List.append_nil] at hnames
    rw [FileSystem.startOf_of_isAbsolute h.isAbsolute, hnames] at hv'
    obtain ⟨rfl, -⟩ := hv'.deterministic (hv.of_extends h.extends)
    have hthere : s.files.find [] .look path = .ok (.found p .directory) := by
      refine FileSystem.find_look_directory_iff.2 ⟨hne, hsize, via', hlen, ?_⟩
      rwa [FileSystem.startOf_of_isAbsolute h.isAbsolute, hnames]
    have hthere' := (hcwd _ _ h.isAbsolute).trans hthere
    exact ⟨s, makeDirectories_there h.nul hthere', rfl, fun _ _ h => h, h.extends, hthere⟩
  rw [List.concat_eq_append] at h hnames ⊢
  have hstep : (lastStep path).1 ≠ [] ∧ (lastStep path).2 ≠ [] := by
    by_contra hroot
    rw [pathNames_eq_nil_of_lastStep h.isAbsolute hroot] at hnames
    simp at hnames
  have hlast := pathNames_lastStep hstep.2
  have hlen := length_lastStep_lt hstep.2
  obtain ⟨rfl, hhead⟩ := h.head hstep
  have hn := h.plain _ (List.mem_append_right _ List.mem_cons_self)
  have hq : (rest ++ [(lastStep path).2]).reverse ++ p = (lastStep path).2 :: (rest.reverse ++ p) := by
    simp
  have hfound := h.found
  rw [hq] at hfound ⊢
  rw [perform_makeDirectories s hstep]
  split
  · next hthere =>
    obtain ⟨q, x, hf⟩ := FileSystem.exists_eq_true_iff.1 hthere
    rw [hcwd _ _ hhead.isAbsolute] at hf
    have hf' := FileSystem.find_extends h.extends hf
    rw [hhead.found] at hf'
    cases hf'
    exact makeLeaf_attained h.isAbsolute h.nul hn hlast h.extends hhead.isAbsolute hf hfound
  · obtain ⟨t, ht, htcwd, hst, htfs, hfind⟩ := makeDirectories_attained hhead
    obtain ⟨w, hw, hwcwd, htw, hwfs, hfind'⟩ :=
      makeLeaf_attained h.isAbsolute h.nul hn hlast htfs hhead.isAbsolute hfind hfound
    refine ⟨w, ?_, hwcwd.trans htcwd, fun q x hx => htw q x (hst q x hx), hwfs, hfind'⟩
    rw [Host.perform_bind, unlessThere, Host.perform_tryCatch, ht]
    dsimp only
    rw [if_neg hn.ne_here, hw]
termination_by path.length

end Build

end Rehome
