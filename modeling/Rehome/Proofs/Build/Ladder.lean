import Rehome.Proofs.Build.Laying

/-! Making directories, from path to path. Where those of one path can be made, so can those of a path that it
goes on from, and those of one that goes on from it by names that are wanted there. -/

namespace Rehome

open FileSystem (pathNames startOf)
open Rehome.Path (IsPlain)

namespace FileSystem

variable {ss : List Text}

/-- To go on along names is to go on from where the path starts. -/
theorem descend_along (cwd : Location) (p : Text) (hs : ∀ s ∈ ss, IsPlain s) :
    pathNames (Path.descend p ss) = pathNames p ++ ss ∧
      startOf cwd (Path.descend p ss) = startOf cwd p := by
  induction ss generalizing p with
  | nil => exact ⟨(List.append_nil _).symm, rfl⟩
  | cons s ss ih =>
    have hp := hs s List.mem_cons_self
    have hrel := Path.isAbsolute_eq_false_of_plain hp
    obtain ⟨hnames, hstart⟩ := ih (Path.join p s) fun t ht => hs t (List.mem_cons_of_mem _ ht)
    constructor
    · rw [Path.descend_cons, hnames, pathNames_join p hrel,
        pathNames_eq_singleton hp.ne_nil hp.slash_not_mem, List.append_assoc, List.singleton_append]
    · rw [Path.descend_cons, hstart, startOf_join cwd p hrel]

end FileSystem

namespace Build

variable {path : Text}

/-- From the files `fs` on, one alone can make the directories of the path, and none that `F` does not have. -/
def Lays (cwd : Location) (fs F : FileSystem) (path : Text) : Prop :=
  ∃ s w : Host, s.files = fs ∧ s.cwd = cwd ∧ s.perform (makeDirectories path) = (.ok (), w) ∧
    w.cwd = cwd ∧ (∃ q, w.files.find cwd .look path = .ok (.found q .directory)) ∧ w.files.Outlines F

/-- The path ends with a plain name. -/
def EndsPlain (path : Text) : Prop := ∃ names n, pathNames path = names ++ [n] ∧ IsPlain n

theorem EndsPlain.lookup {fs : FileSystem} {cwd d : Location} (h : EndsPlain path)
    (hfound : fs.find cwd .look path = .ok (.found d .directory)) : fs.lookup d = some .directory := by
  obtain ⟨names, n, hnames, hn⟩ := h
  obtain ⟨via, -, hv⟩ := FileSystem.leads_of_find hfound
  rw [hnames] at hv
  exact hv.lookup_of_plain hn

theorem endsPlain_join (path : Text) {n : Text} (hn : IsPlain n) : EndsPlain (Path.join path n) :=
  ⟨pathNames path, n, by rw [FileSystem.pathNames_join _ (Path.isAbsolute_eq_false_of_plain hn),
    FileSystem.pathNames_eq_singleton hn.ne_nil hn.slash_not_mem], hn⟩

/-- A path that directories can be made below. Names that it goes on to are cut off again, and a directory
that it leads to stands there. -/
structure Rung (path : Text) : Prop where
  ne_nil : path ≠ []
  split_join : ∀ n, IsPlain n → Path.split (Path.join path n) = (path, n)
  lookup : ∀ (fs : FileSystem) (cwd d : Location), fs.find cwd .look path = .ok (.found d .directory) →
    fs.lookup d = some .directory

namespace Rung

theorem of_ends (h : Path.Ends path) (hplain : EndsPlain path) : Rung path :=
  ⟨h.ne_nil, fun _ hn => h.split_join hn, fun _ _ _ hfound => hplain.lookup hfound⟩

theorem join (path : Text) {n : Text} (hn : IsPlain n) : Rung (Path.join path n) :=
  of_ends (.join_plain path hn) (endsPlain_join path hn)

/-- The last step along a path that was gone on from is the one that was added. -/
theorem lastStep_join {n : Text} (h : Rung path) (hn : IsPlain n) :
    lastStep (Path.join path n) = (path, n) := by
  unfold lastStep
  rw [h.split_join n hn]
  split
  · next he => exact absurd (congrArg Prod.snd he) hn.ne_nil
  · rfl

end Rung

theorem prefix_descend (path : Text) {ss : List Text} (hs : ∀ s ∈ ss, IsPlain s) :
    path <+: Path.descend path ss := by
  induction ss generalizing path with
  | nil => exact List.prefix_rfl
  | cons s ss ih =>
    have hrel := Path.isAbsolute_eq_false_of_plain (hs s List.mem_cons_self)
    exact (Path.prefix_join path hrel).trans (ih _ fun t ht => hs t (List.mem_cons_of_mem _ ht))

/-- What a path goes on to is found beyond a directory. -/
theorem find_of_descend {fs : FileSystem} {cwd q : Location} {ss : List Text} (hne : path ≠ [])
    (hs : ∀ s ∈ ss, IsPlain s)
    (h : fs.find cwd .look (Path.descend path ss) = .ok (.found q .directory)) :
    ∃ d, fs.find cwd .look path = .ok (.found d .directory) := by
  by_cases hnil : ss = []
  · subst hnil
    exact ⟨q, h⟩
  · exact FileSystem.find_of_isPrefix h (prefix_descend path hs) hne
      (FileSystem.descend_along cwd path hs).1 hnil

namespace Lays

variable {cwd d : Location} {fs F : FileSystem} {n : Text}

theorem head (h : Lays cwd fs F path) (hnul : '\x00' ∉ path)
    (hstep : (lastStep path).1 ≠ [] ∧ (lastStep path).2 ≠ []) : Lays cwd fs F (lastStep path).1 := by
  obtain ⟨s, w, hs, hcwd, hmake, hw, ⟨q, hq⟩, hF⟩ := h
  obtain ⟨x, d, hhead, hx, hd, hout⟩ := makeDirectories_head hmake (hw.symm ▸ hq) hnul hstep
  rw [hcwd] at hx
  exact ⟨s, x, hs, hcwd, hhead, hx, ⟨d, hx ▸ hd⟩, hout.trans hF⟩

/-- One more directory can be made where `F` has one. -/
theorem join (h : Lays cwd fs F path) (hrung : Rung path) (hn : IsPlain n)
    (hnul : '\x00' ∉ Path.join path n) (hfs : fs.Outlines F)
    (hd : F.find cwd .look path = .ok (.found d .directory))
    (hfound : F.find cwd .look (Path.join path n) = .ok (.found (n :: d) .directory)) :
    Lays cwd fs F (Path.join path n) := by
  have hrel := Path.isAbsolute_eq_false_of_plain hn
  have hnames : pathNames (Path.join path n) = pathNames path ++ [n] := by
    rw [FileSystem.pathNames_join _ hrel, FileSystem.pathNames_eq_singleton hn.ne_nil hn.slash_not_mem]
  have hstart := FileSystem.startOf_join cwd path hrel
  have hlast := hrung.lastStep_join hn
  obtain ⟨hne, hsize, via', -, hv'⟩ := FileSystem.find_look_directory_iff.1 hfound
  have hbytes : n.byteSize ≤ FileSystem.maxNameBytes :=
    hv'.byteSize_le n (by simp [hnames]) hn.ne_here hn.ne_up
  have hdir : F.lookup (n :: d) = some .directory := by
    rw [hnames] at hv'
    exact hv'.lookup_of_plain hn
  have hname : IsName n :=
    Host.isName_of_mem_pathNames hn.ne_here hn.ne_up (by simp [hnames]) hnul
  -- Wherever the path before leads, the last directory is there or can be made.
  have hleaf : ∀ x : Host, x.cwd = cwd → x.files.find cwd .look path = .ok (.found d .directory) →
      x.files.Outlines F → ∃ y, x.perform (makeLeaf (Path.join path n)) = (.ok (), y) ∧ y.cwd = cwd ∧
        (∃ q, y.files.find cwd .look (Path.join path n) = .ok (.found q .directory)) ∧
        y.files.Outlines F := by
    rintro x rfl hx hxF
    obtain ⟨-, -, via, hlen, hv⟩ := FileSystem.find_look_directory_iff.1 hx
    rcases hxF.of_directory hdir with hl | hl
    · have habsent : x.files.find x.cwd .nameEntry (Path.join path n) = .ok (.absent d n) := by
        refine FileSystem.find_nameEntry_absent_iff.2 ⟨hne, hsize, hn, hbytes, hl, hrung.lookup _ _ _ hx,
          pathNames path, via, hnames, hlen, ?_⟩
        rwa [hstart]
      exact ⟨_, makeLeaf_missing hnul habsent, rfl, (FileSystem.Leaf.made habsent hname).found,
        hxF.put_left hdir (.refl _)⟩
    · have hthere : x.files.find x.cwd .look (Path.join path n) = .ok (.found (n :: d) .directory) := by
        refine FileSystem.find_look_directory_iff.2 ⟨hne, hsize, via ++ [], by simpa using hlen, ?_⟩
        rw [hnames, hstart]
        exact hv.append (.down hn.ne_here hn.ne_up hbytes hl (.nil _))
      exact ⟨x, makeLeaf_there hnul hthere, rfl, ⟨_, hthere⟩, hxF⟩
  obtain ⟨s, w, hs, hcwd, hmake, hw, ⟨q, hq⟩, hF⟩ := h
  obtain ⟨rfl, -⟩ := hF.find_of_directory hd hq
  have hstep : (lastStep (Path.join path n)).1 ≠ [] ∧ (lastStep (Path.join path n)).2 ≠ [] := by
    rw [hlast]
    exact ⟨hrung.ne_nil, hn.ne_nil⟩
  have hrun := perform_makeDirectories s hstep
  rw [hlast] at hrun
  dsimp only at hrun
  split at hrun
  · next hexists =>
    obtain ⟨p, y, hf⟩ := FileSystem.exists_eq_true_iff.1 hexists
    rw [hs, hcwd] at hf
    obtain ⟨rfl, rfl⟩ := hfs.find_of_directory hd hf
    obtain ⟨y, hy, hrest⟩ := hleaf s hcwd (hs.symm ▸ hf) (hs.symm ▸ hfs)
    exact ⟨s, y, hs, hcwd, hrun.trans hy, hrest⟩
  · obtain ⟨y, hy, hrest⟩ := hleaf w hw hq hF
    refine ⟨s, y, hs, hcwd, hrun.trans ?_, hrest⟩
    rw [Host.perform_bind, unlessThere, Host.perform_tryCatch, hmake]
    dsimp only
    rw [if_neg hn.ne_here, hy]

variable {ss : List Text}

/-- Where the directories of a path can be made, so can those of the path that it went on from. -/
theorem of_descend (h : Lays cwd fs F (Path.descend path ss)) (hrung : Rung path)
    (hs : ∀ s ∈ ss, IsPlain s) (hnul : '\x00' ∉ Path.descend path ss) : Lays cwd fs F path := by
  induction ss generalizing path with
  | nil => exact h
  | cons s ss ih =>
    have hn := hs s List.mem_cons_self
    have hrest : ∀ t ∈ ss, IsPlain t := fun t ht => hs t (List.mem_cons_of_mem _ ht)
    have hjoin := ih h (.join path hn) hrest hnul
    have hlast := hrung.lastStep_join hn
    have hpre : Path.join path s <+: Path.descend path (s :: ss) := prefix_descend _ hrest
    have hhead := hjoin.head (fun hc => hnul (hpre.subset hc)) (by rw [hlast]; exact ⟨hrung.ne_nil, hn.ne_nil⟩)
    rwa [hlast] at hhead

/-- Where `F` has the directories that a path goes on to, and no links on the way, these can be made, too. -/
theorem descend (h : Lays cwd fs F path) (hrung : Rung path)
    (hs : ∀ s ∈ ss, IsPlain s) (hnul : '\x00' ∉ Path.descend path ss) (hfs : fs.Outlines F)
    (hd : F.find cwd .look path = .ok (.found d .directory)) (hfree : F.LinkFree d)
    (hfound : ∃ q, F.find cwd .look (Path.descend path ss) = .ok (.found q .directory)) :
    Lays cwd fs F (Path.descend path ss) := by
  induction ss generalizing path d with
  | nil => exact h
  | cons s ss ih =>
    have hn := hs s List.mem_cons_self
    have hrest : ∀ t ∈ ss, IsPlain t := fun t ht => hs t (List.mem_cons_of_mem _ ht)
    have hpre : Path.join path s <+: Path.descend path (s :: ss) := prefix_descend _ hrest
    have hjoin : F.find cwd .look (Path.join path s) = .ok (.found (s :: d) .directory) := by
      obtain ⟨q, hq⟩ := hfound
      obtain ⟨e, he⟩ := find_of_descend (Path.Ends.join_plain path hn).ne_nil hrest hq
      obtain ⟨via, -, hv⟩ := FileSystem.leads_of_find hd
      obtain ⟨via', -, hv'⟩ := FileSystem.leads_of_find he
      obtain ⟨halong, hstart⟩ := FileSystem.descend_along cwd path (List.forall_mem_singleton.2 hn)
      rw [Path.descend_cons, Path.descend_nil] at halong hstart
      rw [halong, hstart] at hv'
      obtain ⟨p, v₁, v₂, -, h₁, h₂⟩ := hv'.split
      obtain ⟨-, rfl⟩ := h₁.deterministic hv
      rwa [h₂.eq_of_plain hfree List.suffix_rfl (List.forall_mem_singleton.2 hn)] at he
    exact ih (h.join hrung hn (fun hc => hnul (hpre.subset hc)) hfs hd hjoin) (.join path hn) hrest hnul hjoin
      (fun q t hq => hfree q t ((List.suffix_cons s d).trans hq)) hfound

end Lays

end Build

end Rehome
