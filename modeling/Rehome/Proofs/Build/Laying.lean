import Rehome.Proofs.Build.Making
import Rehome.Proofs.FileSystem.Outlines
import Rehome.Proofs.Program.Interference

/-! Directories that several make at the same time. Where one alone makes the directories of a path, all who
make them find or make the same, whoever comes first. -/

namespace Rehome

open FileSystem (pathNames startOf)
open Rehome.Path (IsPlain)

namespace FileSystem

variable {fs fs' F : FileSystem} {cwd d q : Location} {path n : Text}

/-- Names that end with a plain one lead to a directory that stands there. -/
theorem Leads.lookup_of_plain {dir p : Location} {names : List Text} {via : List Location}
    (h : fs.Leads dir (names ++ [n]) via p) (hn : IsPlain n) : fs.lookup p = some .directory := by
  obtain ⟨d, v₁, v₂, -, -, h₂⟩ := h.split
  cases h₂ with
  | here => exact absurd rfl hn.ne_here
  | up => exact absurd rfl hn.ne_up
  | down _ _ _ hdir hrest =>
    cases hrest
    exact hdir
  | link _ _ _ hlink hrest => exact hrest.lookup_eq (lookup_startOf (lookup_parent hlink) _)

/-- Where a name is missing at the end of a path. -/
theorem find_nameEntry_absent_iff :
    fs.find cwd .nameEntry path = .ok (.absent d n) ↔
      path ≠ [] ∧ path.byteSize ≤ maxPathBytes ∧ IsPlain n ∧ n.byteSize ≤ maxNameBytes ∧
        fs.lookup (n :: d) = none ∧ fs.lookup d = some .directory ∧
        ∃ init via, pathNames path = init ++ [n] ∧ via.length ≤ maxLinks ∧
          fs.Leads (startOf cwd path) init via d := by
  constructor
  · intro h
    obtain ⟨hne, hsize, hw⟩ := find_ok h
    have hnil : pathNames path ≠ [] := by
      intro hnil
      rw [hnil, walk_nil] at hw
      cases hw
    obtain ⟨init, m, via, p, hnames, hlen, hv, hw⟩ := leads_of_walk_ne_nil hnil hw
    obtain ⟨hhere, hup, hbytes, rfl, rfl, hl⟩ := walk_nameEntry_absent hw
    have hm : n ∈ pathNames path := hnames ▸ List.mem_append_right _ List.mem_cons_self
    obtain ⟨-, ⟨hdir, -⟩ | ⟨t, -, hlink, -⟩ | ⟨-, ⟨-, hd, -⟩ | ⟨x, hx, -⟩⟩⟩ :=
      walk_cons_ok hhere hup hw
    · rw [hl] at hdir
      cases hdir
    · rw [hl] at hlink
      cases hlink
    · exact ⟨hne, hsize, ⟨(mem_pathNames hm).1, hhere, hup, (mem_pathNames hm).2⟩, hbytes, hl, hd,
        init, via, hnames, hlen, hv⟩
    · rw [hl] at hx
      cases hx
  · rintro ⟨hne, hsize, hn, hbytes, hl, hd, init, via, hnames, hlen, hv⟩
    rw [find_eq_walk hne hsize, hnames, walk_append hv hlen (List.cons_ne_nil n [])]
    refine walk_of_stop ?_
    rw [stride_name hn.ne_here hn.ne_up (by simp) hbytes, hl]
    simp [hd]

/-- What is missing at its end is not what a path leads to. -/
theorem find_ne_found_of_absent {x : Node} (h : fs.find cwd .nameEntry path = .ok (.absent d n)) :
    fs.find cwd .look path ≠ .ok (.found q x) := by
  intro hfound
  obtain ⟨-, -, hn, -, hl, -, init, via, hnames, -, hv⟩ := find_nameEntry_absent_iff.1 h
  obtain ⟨-, -, hw⟩ := find_ok hfound
  rw [hnames] at hw
  obtain ⟨via', p, -, hv', hlast⟩ := leads_of_walk_append (List.cons_ne_nil n []) hw
  obtain ⟨-, rfl⟩ := hv'.deterministic hv
  obtain ⟨-, ⟨hdir, -⟩ | ⟨t, -, hlink, -⟩ | ⟨-, ⟨-, -, hr⟩ | ⟨y, hy, -⟩⟩⟩ :=
    walk_cons_ok hn.ne_here hn.ne_up hlast
  · rw [hl] at hdir
    cases hdir
  · rw [hl] at hlink
    cases hlink
  · cases hr
  · rw [hl] at hy
    cases hy

/-- From `fs` to `fs'` the last directory of a path was there, or was made. -/
inductive Leaf (fs : FileSystem) (cwd : Location) (path : Text) : FileSystem → Prop where
  | there {q : Location} (h : fs.find cwd .look path = .ok (.found q .directory)) : Leaf fs cwd path fs
  | made {d : Location} {n : Text} (h : fs.find cwd .nameEntry path = .ok (.absent d n)) (hn : IsName n) :
      Leaf fs cwd path (fs.put d n .directory)

namespace Leaf

theorem «extends» (h : Leaf fs cwd path fs') : fs.Extends fs' := by
  cases h with
  | there => exact fun _ _ hq => hq
  | @made d n h =>
    obtain ⟨-, -, -, -, hnone, -⟩ := find_nameEntry_absent_iff.1 h
    intro q x hq
    rw [lookup_put_of_ne]
    · exact hq
    · rintro rfl
      rw [hnone] at hq
      cases hq

/-- A name that is missing is found once a directory stands there. -/
theorem found_of_absent (h : fs.find cwd .nameEntry path = .ok (.absent d n)) (hkeep : fs.Outlines fs')
    (hdir : fs'.lookup (n :: d) = some .directory) :
    fs'.find cwd .look path = .ok (.found (n :: d) .directory) := by
  obtain ⟨hne, hsize, hn, hbytes, -, -, init, via, hnames, hlen, hv⟩ := find_nameEntry_absent_iff.1 h
  refine find_look_directory_iff.2 ⟨hne, hsize, via ++ [], by simpa using hlen, ?_⟩
  rw [hnames]
  exact (hkeep.leads hv).append (.down hn.ne_here hn.ne_up hbytes hdir (.nil _))

theorem lookup_made (h : fs.find cwd .nameEntry path = .ok (.absent d n)) (hn : IsName n) :
    (fs.put d n .directory).lookup (n :: d) = some .directory := by
  obtain ⟨-, -, -, -, hnone, hd, -⟩ := find_nameEntry_absent_iff.1 h
  exact lookup_put_self ⟨hn, hd, by simp [hnone]⟩

theorem found (h : Leaf fs cwd path fs') : ∃ q, fs'.find cwd .look path = .ok (.found q .directory) := by
  have hext := h.extends
  cases h with
  | there h => exact ⟨_, h⟩
  | made h hn => exact ⟨_, found_of_absent h (.of_extends hext) (lookup_made h hn)⟩

/-- No directory goes by the name `.` that could be made. -/
theorem eq_of_here {names : List Text} (h : Leaf fs cwd path fs')
    (hnames : pathNames path = names ++ [Path.here]) : fs' = fs := by
  cases h with
  | there => rfl
  | made h =>
    obtain ⟨-, -, hn, -, -, -, init, via, hnames', -⟩ := find_nameEntry_absent_iff.1 h
    rw [hnames] at hnames'
    exact absurd (List.singleton_inj.1 (List.append_inj' hnames' rfl).2).symm hn.ne_here

variable {u : FileSystem} (h : Leaf fs cwd path fs') (hu : fs.Outlines u) (hF : u.Outlines F)
  (hF' : fs'.Outlines F)
include h hu hF hF'

/-- On a file system in between, the last directory is there already, or can be made. -/
theorem between :
    (∃ q, u.find cwd .look path = .ok (.found q .directory)) ∧ fs'.Outlines u ∨
      ∃ d n, u.find cwd .nameEntry path = .ok (.absent d n) ∧ IsName n ∧
        F.lookup (n :: d) = some .directory ∧ fs'.Outlines (u.put d n .directory) := by
  cases h with
  | there h => exact .inl ⟨⟨_, hu.find_directory h⟩, hu⟩
  | @made d n h hn =>
    obtain ⟨hne, hsize, hplain, hbytes, -, hd, init, via, hnames, hlen, hv⟩ :=
      find_nameEntry_absent_iff.1 h
    have hdir := hF'.directory (lookup_made h hn)
    rcases hF.of_directory hdir with hl | hl
    · have habsent : u.find cwd .nameEntry path = .ok (.absent d n) :=
        find_nameEntry_absent_iff.2
          ⟨hne, hsize, hplain, hbytes, hl, hu.directory hd, init, via, hnames, hlen, hu.leads hv⟩
      have hput : u.Outlines (u.put d n .directory) := .put fun y hy => by
        rw [hl] at hy
        cases hy
      exact .inr ⟨d, n, habsent, hn, hdir,
        (hu.trans hput).put_left (lookup_made habsent hn) (.refl _)⟩
    · exact .inl ⟨⟨_, found_of_absent h hu hl⟩, hu.put_left hl (.refl _)⟩

/-- Where the path leads to a directory no other is needed. -/
theorem least (hfound : u.find cwd .look path = .ok (.found q .directory)) : fs'.Outlines u := by
  rcases h.between hu hF hF' with ⟨-, hu'⟩ | ⟨d, n, habsent, -⟩
  · exact hu'
  · exact absurd hfound (find_ne_found_of_absent habsent)

end Leaf

end FileSystem

namespace Host

variable {s : Host} {path n : Text} {d q : Location}

theorem answer_makeDirectory_there (hnul : '\x00' ∉ path)
    (h : s.files.find s.cwd .look path = .ok (.found q .directory)) :
    ∃ e, s.answer (.makeDirectory path) = (.error (.system e path), s) := by
  rcases hf : s.files.find s.cwd .nameEntry path with e | (⟨p, x⟩ | ⟨p, n⟩)
  · exact ⟨e, by simp [answer, onPath, hnul, FileSystem.makeDirectory, hf, Except.map]⟩
  · exact ⟨.exists, by simp [answer, onPath, hnul, FileSystem.makeDirectory, hf, Except.map]⟩
  · exact absurd h (FileSystem.find_ne_found_of_absent hf)

theorem answer_makeDirectory_missing (hnul : '\x00' ∉ path)
    (h : s.files.find s.cwd .nameEntry path = .ok (.absent d n)) :
    s.answer (.makeDirectory path) = (.ok (), { s with files := s.files.put d n .directory }) := by
  simp [answer, onPath, hnul, FileSystem.makeDirectory, h, Except.map]

end Host

namespace Build

variable {s u v w : Host} {path : Text} {q : Location}

/-! ### One alone -/

theorem makeLeaf_ok (h : u.perform (makeLeaf path) = (.ok (), v)) :
    v.cwd = u.cwd ∧ '\x00' ∉ path ∧ u.files.Leaf u.cwd path v.files := by
  rw [makeLeaf, Host.perform_tryCatch, Host.perform_makeDirectory] at h
  rcases u.answer_makeDirectory path with ⟨e, he⟩ | ⟨d, n, hnul, hf, he⟩
  · rw [he] at h
    dsimp only at h
    split at h
    · next e' p =>
      rw [Host.perform_bind, Host.perform_isDirectory] at h
      dsimp only at h
      split at h
      · next hdir =>
        cases h
        obtain ⟨q, hq⟩ := FileSystem.isDirectory_eq_true_iff.1 hdir
        refine ⟨rfl, fun hnul => ?_, .there hq⟩
        have hnul' : u.answer (.makeDirectory path) = (.error .nul, u) := if_pos hnul
        rw [hnul'] at he
        cases he
      · cases h
    · cases h
  · rw [he] at h
    cases h
    refine ⟨rfl, hnul, .made hf ?_⟩
    obtain ⟨-, -, hn, -, -, -, init, via, hnames, -⟩ := FileSystem.find_nameEntry_absent_iff.1 hf
    exact Host.isName_of_mem_pathNames hn.ne_here hn.ne_up (by simp [hnames]) hnul

/-- Only where no directory is in the end does making one fail because something is there. -/
theorem makeDirectories_exists {p : Text}
    (h : u.perform (makeDirectories path) = (.error (.system .exists p), v)) :
    v.files.isDirectory v.cwd path = false := by
  have hleaf : ∀ x y : Host, x.perform (makeLeaf path) = (.error (.system .exists p), y) →
      y.files.isDirectory y.cwd path = false := by
    intro x y hxy
    rw [makeLeaf, Host.perform_tryCatch] at hxy
    split at hxy
    · cases hxy
    · split at hxy
      · rw [Host.perform_bind, Host.perform_isDirectory] at hxy
        dsimp only at hxy
        split at hxy
        · cases hxy
        · next hno =>
          cases hxy
          simpa using hno
      · next f hf =>
        cases hxy
        exact absurd rfl (hf _ _)
  by_cases hstep : (lastStep path).1 ≠ [] ∧ (lastStep path).2 ≠ []
  swap
  · rw [makeDirectories, dif_neg hstep] at h
    exact hleaf _ _ h
  rw [perform_makeDirectories u hstep] at h
  split at h
  · exact hleaf _ _ h
  rw [Host.perform_bind] at h
  split at h
  · next a w hhead =>
    split at h
    · cases h
    · exact hleaf _ _ h
  · -- Of the directories before the last one that is no reason to fail.
    next e w hhead =>
    cases h
    rw [unlessThere, Host.perform_tryCatch] at hhead
    split at hhead
    · cases hhead
    · split at hhead
      · cases hhead
      · next f hf =>
        cases hhead
        exact absurd rfl (hf _)

/-- Where all directories were made, those before the last one were there or were made, and then the last. -/
theorem makeDirectories_ok (h : u.perform (makeDirectories path) = (.ok (), v))
    (hfound : v.files.find v.cwd .look path = .ok (.found q .directory)) :
    v.cwd = u.cwd ∧ (u.files.Leaf u.cwd path v.files ∧
        ((lastStep path).1 ≠ [] ∧ (lastStep path).2 ≠ [] →
          u.files.exists u.cwd (lastStep path).1 = true) ∨
      ((lastStep path).1 ≠ [] ∧ (lastStep path).2 ≠ []) ∧
        u.files.exists u.cwd (lastStep path).1 = false ∧
        ∃ w d, u.perform (makeDirectories (lastStep path).1) = (.ok (), w) ∧ w.cwd = u.cwd ∧
          w.files.find u.cwd .look (lastStep path).1 = .ok (.found d .directory) ∧
          w.files.Leaf u.cwd path v.files) := by
  by_cases hstep : (lastStep path).1 ≠ [] ∧ (lastStep path).2 ≠ []
  swap
  · rw [makeDirectories, dif_neg hstep] at h
    obtain ⟨hcwd, -, hleaf⟩ := makeLeaf_ok h
    exact ⟨hcwd, .inl ⟨hleaf, fun hc => absurd hc hstep⟩⟩
  rw [perform_makeDirectories u hstep] at h
  split at h
  · next hthere =>
    obtain ⟨hcwd, -, hleaf⟩ := makeLeaf_ok h
    exact ⟨hcwd, .inl ⟨hleaf, fun _ => hthere⟩⟩
  next hmissing =>
  obtain ⟨⟨⟩, w, hhead, hlast⟩ := Host.perform_bind_ok h
  -- Once the head is passed its directory is there, since the last one is in the end.
  have hleaf : v.cwd = w.cwd ∧ w.files.Leaf w.cwd path v.files := by
    split at hlast
    · cases hlast
      exact ⟨rfl, .there hfound⟩
    · obtain ⟨hcwd, -, hleaf⟩ := makeLeaf_ok hlast
      exact ⟨hcwd, hleaf⟩
  have hhead' : ∃ d, w.files.find w.cwd .look (lastStep path).1 = .ok (.found d .directory) := by
    have hbelow : ∀ {purpose : Purpose} {r : Stop}, w.files.find w.cwd purpose path = .ok r → _ :=
      fun hf => FileSystem.find_of_isPrefix hf (lastStep_fst_isPrefix path) hstep.1
        (pathNames_lastStep hstep.2) (List.cons_ne_nil _ _)
    generalize v.files = fs at hleaf
    cases hleaf.2 with
    | there hf => exact hbelow hf
    | made hf => exact hbelow hf
  obtain ⟨d, hd⟩ := hhead'
  rw [unlessThere, Host.perform_tryCatch] at hhead
  rcases hmake : u.perform (makeDirectories (lastStep path).1) with ⟨e | ⟨⟩, x⟩ <;> rw [hmake] at hhead
  · dsimp only at hhead
    split at hhead
    · cases hhead
      have hno := makeDirectories_exists hmake
      rw [FileSystem.isDirectory_eq_true_iff.2 ⟨d, hd⟩] at hno
      cases hno
    · cases hhead
  · cases hhead
    have hcwd : w.cwd = u.cwd := by
      have hkeeps : (makeDirectories (lastStep path).1).Keeps (·.cwd = u.cwd) fun _ => True := by
        apply makeDirectories_keeps_heads
        intro q _ _ _ x hx
        exact (x.answer_makeDirectory_cwd q).trans hx
      have hrun := (Host.run_keeps hkeeps rfl).1
      rwa [show Host.run (makeDirectories (lastStep path).1).run u = _ from hmake] at hrun
    rw [hcwd] at hd hleaf
    exact ⟨hleaf.1, .inr ⟨hstep, by simpa using hmissing, w, d, rfl, hcwd, hd, hleaf.2⟩⟩

/-- A path that leads to a directory needs no more directories than are made for it by one alone. -/
theorem makeDirectories_least {path : Text} {fs F : FileSystem} {u v : Host} {q r : Location}
    (h : u.perform (makeDirectories path) = (.ok (), v))
    (hfound : v.files.find v.cwd .look path = .ok (.found q .directory)) (hF : v.files.Outlines F)
    (hu : u.files.Outlines fs) (hfs : fs.Outlines F)
    (hthere : fs.find u.cwd .look path = .ok (.found r .directory)) : v.files.Outlines fs := by
  obtain ⟨-, ⟨hleaf, -⟩ | ⟨hstep, -, w, d, hhead, hcwd, hd, hleaf⟩⟩ := makeDirectories_ok h hfound
  · exact hleaf.least hu hfs hF hthere
  · have hlen := length_lastStep_lt hstep.2
    obtain ⟨d', hd'⟩ := FileSystem.find_of_isPrefix hthere (lastStep_fst_isPrefix path) hstep.1
      (pathNames_lastStep hstep.2) (List.cons_ne_nil _ _)
    have hw := makeDirectories_least hhead (hcwd ▸ hd)
      ((FileSystem.Outlines.of_extends hleaf.extends).trans hF) hu hfs hd'
    exact hleaf.least hw hfs hF hthere
termination_by path.length

/-- Where the directories of a path were made, making those before the last one would have done for these. -/
theorem makeDirectories_head (h : u.perform (makeDirectories path) = (.ok (), v))
    (hfound : v.files.find v.cwd .look path = .ok (.found q .directory)) (hnul : '\x00' ∉ path)
    (hstep : (lastStep path).1 ≠ [] ∧ (lastStep path).2 ≠ []) :
    ∃ w d, u.perform (makeDirectories (lastStep path).1) = (.ok (), w) ∧ w.cwd = u.cwd ∧
      w.files.find w.cwd .look (lastStep path).1 = .ok (.found d .directory) ∧
      w.files.Outlines v.files := by
  obtain ⟨hcwd, ⟨hleaf, hthere⟩ | ⟨-, -, w, d, hhead, hw, hd, hleaf⟩⟩ := makeDirectories_ok h hfound
  · have hpre := lastStep_fst_isPrefix path
    obtain ⟨d, hd⟩ := FileSystem.find_of_isPrefix hfound hpre hstep.1 (pathNames_lastStep hstep.2)
      (List.cons_ne_nil _ _)
    have hout : u.files.Outlines v.files := .of_extends hleaf.extends
    obtain ⟨p, x, hf⟩ := FileSystem.exists_eq_true_iff.1 (hthere hstep)
    rw [hcwd] at hd
    obtain ⟨rfl, rfl⟩ := hout.find_of_directory hd hf
    exact ⟨u, p, makeDirectories_there (fun hc => hnul (hpre.subset hc)) hf, rfl, hf, hout⟩
  · exact ⟨w, d, hhead, hw, by rw [hw]; exact hd, .of_extends hleaf.extends⟩

/-! ### Among others -/

/-- Rules for making the directories of `F` at the same time. In between all file systems outline `F`, and are
outlined by `fs`. -/
structure Grounds (cwd : Location) (fs F : FileSystem) (I : Host → Prop) (R G : Host → Host → Prop) :
    Prop where
  cwd_eq : ∀ u, I u → u.cwd = cwd
  above : ∀ u, I u → fs.Outlines u.files
  below : ∀ u, I u → u.files.Outlines F
  rely : ∀ u v, R u v → u.files.Outlines v.files
  still : ∀ u, G u u
  make : ∀ u d n, I u → u.files.lookup (n :: d) = none → F.lookup (n :: d) = some .directory →
    I { u with files := u.files.put d n .directory } ∧ G u { u with files := u.files.put d n .directory }

section Grounds

variable {cwd : Location} {fs F fs₁ fs₂ : FileSystem} {I : Host → Prop} {R G : Host → Host → Prop}
  (hg : Grounds cwd fs F I R G)
include hg

/-- A file system that outlines the host still does when the next call is made. -/
theorem Grounds.next {x : FileSystem} (hu : x.Outlines u.files) (hR : R u v) : x.Outlines v.files :=
  hu.trans (hg.rely u v hR)

theorem makeLeaf_withstands (hleaf : fs₁.Leaf cwd path fs₂) (hF : fs₂.Outlines F) (hnul : '\x00' ∉ path)
    (hu : fs₁.Outlines u.files) :
    (makeLeaf path).Withstands I R G (fun r v => r = .ok () ∧ fs₂.Outlines v.files) u := by
  apply Action.Withstands.tryCatch (S := fun r v => r = .ok () ∧ fs₂.Outlines v.files ∨
    (∃ e, r = .error (.system e path)) ∧ fs₂.Outlines v.files ∧
      ∃ q, v.files.find cwd .look path = .ok (.found q .directory))
  · intro v hR hI
    have hcwd := hg.cwd_eq v hI
    rcases hleaf.between (hg.next hu hR) (hg.below v hI) hF with ⟨⟨q, hq⟩, hv⟩ | ⟨d, n, hf, hn, hdir, hv⟩
    · obtain ⟨e, he⟩ := Host.answer_makeDirectory_there hnul (hcwd.symm ▸ hq)
      rw [he]
      exact ⟨hI, hg.still v, .inr ⟨⟨e, rfl⟩, hv, q, hq⟩⟩
    · rw [Host.answer_makeDirectory_missing hnul (hcwd.symm ▸ hf)]
      obtain ⟨-, -, -, -, hnone, -⟩ := FileSystem.find_nameEntry_absent_iff.1 hf
      obtain ⟨hI', hG⟩ := hg.make v d n hI hnone hdir
      exact ⟨hI', hG, .inl ⟨rfl, hv⟩⟩
  · rintro a v (h | ⟨⟨e, he⟩, -⟩)
    · exact h
    · cases he
  · rintro f v (⟨he, -⟩ | ⟨⟨e, he⟩, hv, q, hq⟩)
    · cases he
    cases he
    -- Others may have come, but a directory that was there still is.
    intro x hR hI
    have hdir : x.files.isDirectory x.cwd path = true := by
      rw [hg.cwd_eq x hI]
      exact FileSystem.isDirectory_eq_true_iff.2 ⟨q, (hg.rely v x hR).find_directory hq⟩
    refine ⟨hI, hg.still x, ?_⟩
    show ((if x.files.isDirectory x.cwd path = true then pure () else _ : Action Unit)).Withstands I R G _ x
    rw [if_pos hdir]
    exact ⟨rfl, hg.next hv hR⟩

/-- Where one alone makes the directories of a path, so does one among others. -/
theorem makeDirectories_withstands {path : Text} {s w u : Host} {q : Location}
    (h : s.perform (makeDirectories path) = (.ok (), w)) (hcwd : s.cwd = cwd) (hs : s.files = fs)
    (hfound : w.files.find w.cwd .look path = .ok (.found q .directory)) (hF : w.files.Outlines F)
    (hnul : '\x00' ∉ path) (hu : fs.Outlines u.files) :
    (makeDirectories path).Withstands I R G (fun r v => r = .ok () ∧ w.files.Outlines v.files) u := by
  obtain ⟨hwcwd, hcases⟩ := makeDirectories_ok h hfound
  rw [hcwd, hs] at hcases
  rw [hwcwd, hcwd] at hfound
  by_cases hstep : (lastStep path).1 ≠ [] ∧ (lastStep path).2 ≠ []
  swap
  · obtain ⟨hleaf, -⟩ | ⟨hstep', -⟩ := hcases
    · rw [makeDirectories, dif_neg hstep]
      exact makeLeaf_withstands hg hleaf hF hnul hu
    · exact absurd hstep' hstep
  rw [makeDirectories]
  dsimp only
  rw [dif_pos hstep]
  intro v hR hI
  refine ⟨hI, hg.still v, ?_⟩
  have hvcwd := hg.cwd_eq v hI
  have hv := hg.next hu hR
  have hlen := length_lastStep_lt hstep.2
  show ((if v.files.exists v.cwd (lastStep path).1 = true then makeLeaf path else do
    unlessThere (makeDirectories (lastStep path).1)
    if (lastStep path).2 = Path.here then pure () else makeLeaf path : Action Unit)).Withstands I R G _ v
  rw [hvcwd]
  obtain ⟨hleaf, hthere⟩ | ⟨-, -, x, d, hhead, hxcwd, hd, hleaf⟩ := hcases
  · have hthere' : v.files.exists cwd (lastStep path).1 = true := by
      obtain ⟨p, x, hf⟩ := FileSystem.exists_eq_true_iff.1 (hthere hstep)
      obtain ⟨y, -, hy⟩ := hv.find_look hf
      exact FileSystem.exists_eq_true_iff.2 ⟨p, y, hy⟩
    rw [if_pos hthere']
    exact makeLeaf_withstands hg hleaf hF hnul hv
  have hxF : x.files.Outlines F := (FileSystem.Outlines.of_extends hleaf.extends).trans hF
  split
  · -- Others have made the head already, and then all that was made for it alone.
    next hexists =>
    have hx : x.files.Outlines v.files := by
      obtain ⟨p, y, hf⟩ := FileSystem.exists_eq_true_iff.1 hexists
      obtain ⟨rfl, rfl⟩ := (hg.below v hI).find_of_directory (hxF.find_directory hd) hf
      exact makeDirectories_least hhead (hxcwd.symm ▸ hd) hxF (hs.symm ▸ hv) (hg.below v hI)
        (hcwd.symm ▸ hf)
    exact makeLeaf_withstands hg hleaf hF hnul hx
  · have hnul' : '\x00' ∉ (lastStep path).1 := fun hc => hnul ((lastStep_fst_isPrefix path).subset hc)
    have hhead' := makeDirectories_withstands hhead hcwd hs (hxcwd.symm ▸ hd) hxF hnul' hv
    apply Action.Withstands.bind (Q := fun r v => r = .ok () ∧ x.files.Outlines v.files)
    · apply hhead'.tryCatch
      · exact fun _ _ hr => hr
      · rintro e y ⟨he, -⟩
        cases he
    · rintro _ y ⟨-, hy⟩
      split
      · next hhere =>
        have hnames := pathNames_lastStep hstep.2
        rw [hhere] at hnames
        rw [hleaf.eq_of_here hnames]
        exact ⟨rfl, hy⟩
      · exact makeLeaf_withstands hg hleaf hF hnul hy
    · rintro e y ⟨he, -⟩
      cases he
termination_by path.length

end Grounds

end Build

end Rehome
