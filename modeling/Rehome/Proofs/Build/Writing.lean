import Rehome.Proofs.Build.Confinement
import Rehome.Proofs.FileSystem.Grown

/-! What the writing of a file leaves, once it succeeds: the text at the place that the path spells
below the destination, and directories on the way there. -/

namespace Rehome

open FileSystem (pathNames Along Confined Grown)
open Rehome.Path (IsPlain)

namespace FileSystem

/-- From `fs` to `fs'` the file at `p` was filled with `t`. Nothing else changed, but for directories
that were missing on the way there. -/
structure Filled (fs : FileSystem) (p : Location) (t : Text) (fs' : FileSystem) : Prop where
  file : fs'.lookup p = some (.file (.text t))
  changed : ∀ q, q ≠ p → fs'.lookup q = fs.lookup q ∨
    q <:+ p ∧ fs.lookup q = none ∧ fs'.lookup q = some .directory

variable {fs₀ fs fs' : FileSystem} {d q : Location} {n t : Text} {x : Node}

namespace Filled

/-- What else stood there still does. -/
theorem lookup_eq {p : Location} (h : fs.Filled p t fs') (hq : q ≠ p) (hl : fs.lookup q = some x) :
    fs'.lookup q = some x := by
  rcases h.changed q hq with he | ⟨-, hnone, -⟩
  · rw [he, hl]
  · rw [hl] at hnone
    cases hnone

/-- What is new lies on the way to the file. -/
theorem suffix_of_ne {p : Location} (h : fs.Filled p t fs') (hne : fs'.lookup q ≠ fs.lookup q) :
    q <:+ p := by
  by_cases hq : q = p
  · exact hq ▸ List.suffix_rfl
  · exact ((h.changed q hq).resolve_left hne).1

end Filled

/-- Emptying a file before it is filled makes no difference. -/
theorem filled_putFile (hroom : fs.HasRoom d n) (hchanged : ∀ q, fs.lookup q = fs₀.lookup q ∨
      q <:+ n :: d ∧ fs₀.lookup q = none ∧ fs.lookup q = some .directory) :
    fs₀.Filled (n :: d) t ((fs.putFile (n :: d) (.text [])).putFile (n :: d) (.text t)) := by
  have hd : (fs.put d n (.file (.text []))).lookup d = some .directory := by
    rw [lookup_put_of_ne (List.cons_ne_self n d).symm, hroom.2.1]
  have hn : (fs.put d n (.file (.text []))).lookup (n :: d) ≠ some .directory := by
    simp [lookup_put_self hroom]
  refine ⟨lookup_put_self ⟨hroom.1, hd, hn⟩, fun q hq => ?_⟩
  have hq' : ((fs.putFile (n :: d) (.text [])).putFile (n :: d) (.text t)).lookup q =
      fs.lookup q := by
    rw [putFile, putFile, lookup_put_of_ne hq, lookup_put_of_ne hq]
  rw [hq']
  exact hchanged q

end FileSystem

namespace Host

variable {s s' t : Host} {path : Text} {p : Location}

/-- No file is opened by a path that ends in a slash. -/
theorem fileName_ne_nil_of_create (h : s.answer (.create path) = (.ok p, t)) :
    (Path.split path).2 ≠ [] := by
  intro hnil
  obtain ⟨head, w, hpath, -, hslash, -⟩ := FileSystem.eq_split path
  rw [hnil, List.append_nil] at hpath
  subst hpath
  rcases s.answer_create path with ⟨e, he⟩ | ⟨q, -, hfind, -⟩
  · rw [he] at h
    cases h
  obtain ⟨r, hr, hfile⟩ : ∃ r, s.files.find s.cwd .openFile path = .ok r ∧
      ∀ q, r ≠ .found q .directory := by
    rcases hfind with ⟨n, d, -, hf⟩ | ⟨x, hx, hf⟩
    · exact ⟨_, hf, by simp⟩
    · refine ⟨_, hf, fun q hq => ?_⟩
      cases hq
      exact hx rfl
  obtain ⟨hne, -, hw⟩ := FileSystem.find_ok hr
  rw [hslash.resolve_left hne] at hw
  by_cases hnames : pathNames path = []
  · rw [hnames, FileSystem.walk_nil] at hw
    exact hfile _ (Except.ok.inj hw).symm
  obtain ⟨init, n, via, d, -, -, -, hw⟩ := FileSystem.leads_of_walk_ne_nil hnames hw
  by_cases hhere : n = Path.here
  · subst hhere
    rw [FileSystem.walk_here, FileSystem.walk_nil] at hw
    exact hfile _ (Except.ok.inj hw).symm
  by_cases hup : n = Path.up
  · subst hup
    rw [FileSystem.walk_up, FileSystem.walk_nil] at hw
    exact hfile _ (Except.ok.inj hw).symm
  have hstop : s.files.stride .openFile true d [n] = .stop (.error .isDirectory) := by
    unfold FileSystem.stride
    rw [if_neg hhere, if_neg hup, if_pos ⟨rfl, rfl, rfl⟩]
  rw [FileSystem.walk_of_stop hstop] at hw
  cases hw

/-- Where a file is opened beyond a path, the path leads to a directory. -/
theorem found_of_create {base : Text} {ns : List Text} (h : s.answer (.create path) = (.ok p, t))
    (hbase : base <+: path) (hne : base ≠ []) (hnames : pathNames path = pathNames base ++ ns)
    (hns : ns ≠ []) :
    '\x00' ∉ path ∧ ∃ q, s.files.find s.cwd .look base = .ok (.found q .directory) := by
  rcases s.answer_create path with ⟨e, he⟩ | ⟨_, hnul, ⟨_, _, -, hf⟩ | ⟨_, -, hf⟩, -⟩
  · rw [he] at h
    cases h
  · exact ⟨hnul, FileSystem.find_of_isPrefix hf hbase hne hnames hns⟩
  · exact ⟨hnul, FileSystem.find_of_isPrefix hf hbase hne hnames hns⟩

/-- Where a file is opened by an absolute path, all names before its own lead to a directory. -/
theorem parent_of_create (h : s.answer (.create path) = (.ok p, t)) (habs : Path.isAbsolute path = true) :
    '\x00' ∉ path ∧ pathNames path = pathNames (Path.parent path) ++ [Path.fileName path] ∧
      ∃ d, s.files.find s.cwd .look (Path.parent path) = .ok (.found d .directory) := by
  have hnames := FileSystem.pathNames_eq_append_fileName (fileName_ne_nil_of_create h)
  obtain ⟨hnul, hd⟩ := found_of_create h (FileSystem.split_fst_isPrefix path)
    (FileSystem.split_fst_ne_nil habs) hnames (List.cons_ne_nil _ [])
  exact ⟨hnul, hnames, hd⟩

/-- What is opened depends on what is found. -/
theorem create_of_find_eq (h : s.answer (.create path) = (.ok p, t))
    (hfind : s'.files.find s'.cwd .openFile path = s.files.find s.cwd .openFile path) :
    s'.answer (.create path) = (.ok p, { s' with files := s'.files.putFile p (.text []) }) := by
  by_cases hnul : '\x00' ∈ path
  · have he : s.answer (.create path) = (.error .nul, s) := if_pos hnul
    rw [he] at h
    cases h
  have hcreate : s'.files.create s'.cwd path =
      (s.files.create s.cwd path).map fun r => (r.1, s'.files.putFile r.1 (.text [])) := by
    unfold FileSystem.create
    rw [hfind]
    split <;> rfl
  rcases hc : s.files.create s.cwd path with e | ⟨q, fs⟩
  · simp [answer, onPath, hnul, hc] at h
  · have hq : q = p := by
      simp only [answer, onPath, hnul, hc, if_false, Prod.mk.injEq, Except.ok.injEq] at h
      exact h.1
    subst hq
    simp [answer, onPath, hnul, hcreate, hc, Except.map]

end Host

namespace Build

variable {fs₀ : FileSystem} {base path t : Text} {D : Location} {ns : List Text} {s s' : Host}

/-- Making the directories of a path that goes on from the base leaves all that is there, and nothing but
what is confined. -/
theorem makeDirectories_extends (hpath : Below base path ns) (hconf : Confined fs₀ base D s.files) :
    (s.perform (makeDirectories (Path.parent path))).2.cwd = s.cwd ∧
      Confined fs₀ base D (s.perform (makeDirectories (Path.parent path))).2.files ∧
      s.files.Extends (s.perform (makeDirectories (Path.parent path))).2.files := by
  have hkeeps : (makeDirectories (Path.parent path)).Keeps
      (fun u => u.cwd = s.cwd ∧ Confined fs₀ base D u.files ∧ s.files.Extends u.files)
      fun _ => True := by
    refine makeDirectories_parent_keeps fun q hne hpre hnames u ⟨hcwd, hu, hext⟩ => ?_
    refine ⟨(u.answer_makeDirectory_cwd q).trans hcwd,
      Host.confined_makeDirectory hu (hpath.along.head hpre hnames hne), fun r x hr => ?_⟩
    exact u.extends_makeDirectory q r x (hext r x hr)
  exact (Host.run_keeps hkeeps ⟨rfl, hconf, fun _ _ h => h⟩).1

/-- Making the directories of a path along plain names makes at most what is missing on the way to where
these lead. -/
theorem makeDirectories_grown {dir : Text} {names : List Text} (hplain : ∀ n ∈ names, IsPlain n)
    (habs : Path.isAbsolute dir = true) (hnames : pathNames dir <+: names) :
    (s.perform (makeDirectories dir)).2.files = s.files ∨
      ∃ P, s.files.Site [] names P ∧ Grown s.files names P (s.perform (makeDirectories dir)).2.files := by
  have hkeeps : (makeDirectories dir).Keeps
      (fun u => u.files = s.files ∨ ∃ P, s.files.Site [] names P ∧ Grown s.files names P u.files)
      fun _ => True := by
    refine makeDirectories_keeps_heads fun q hne hpre hq u hgrown => ?_
    have habs' := (FileSystem.isAbsolute_of_isPrefix hpre hne).trans habs
    exact Host.grown_makeDirectory hplain habs' (hq.trans hnames) hgrown
  exact (Host.run_keeps hkeeps (.inl rfl)).1

/-- Where the names are plain it makes at most what is missing on the way to where the path leads. -/
theorem makeDirectories_parent (hpath : Below base path ns) (hplain : ∀ n ∈ pathNames path, IsPlain n)
    (hconf : Confined fs₀ base D s.files) :
    (s.perform (makeDirectories (Path.parent path))).2.cwd = s.cwd ∧
      Confined fs₀ base D (s.perform (makeDirectories (Path.parent path))).2.files ∧
      ((s.perform (makeDirectories (Path.parent path))).2.files = s.files ∨
        ∃ P, s.files.Site [] (pathNames path) P ∧
          Grown s.files (pathNames path) P (s.perform (makeDirectories (Path.parent path))).2.files) := by
  obtain ⟨hcwd, hconf', -⟩ := makeDirectories_extends hpath hconf
  exact ⟨hcwd, hconf', makeDirectories_grown hplain (FileSystem.isAbsolute_parent hpath.isAbsolute)
    (pathNames_split_fst_isPrefix path)⟩

/-- A text that could not be written has left the directories that were made for it. -/
theorem writeText_error {f : Fault} (h : s.perform (writeText path t) = (.error f, s')) :
    s' = (s.perform (makeDirectories (Path.parent path))).2 := by
  rw [writeText, Host.perform_bind] at h
  rcases hmake : s.perform (makeDirectories (Path.parent path)) with ⟨e | ⟨⟩, u⟩ <;> rw [hmake] at h
  · cases h
    rfl
  dsimp only at h
  rw [Host.perform_bind, Host.perform_create] at h
  rcases u.answer_create path with ⟨e, he⟩ | ⟨p, -, -, he⟩ <;> rw [he] at h <;> cases h
  rfl

theorem writeText_confined (hpath : Below base path ns) (hconf : Confined fs₀ base D s.files)
    (h : s.perform (writeText path t) = (.ok (), s')) : Confined fs₀ base D s'.files := by
  have hkeeps := writeText_keptBelow (t := t) (keptBelow_confined fs₀ D) hpath
  have hrun := (Host.run_keeps hkeeps hconf).1
  rwa [show Host.run (writeText path t).run s = _ from h] at hrun

/-- A file is written, once the directories on the way there are made, where the names before its last
one lead. -/
theorem writeText_inside (hpath : Below base path ns)
    (hdirs : Confined fs₀ base D (s.perform (makeDirectories (Path.parent path))).2.files)
    (h : s.perform (writeText path t) = (.ok (), s')) :
    ∃ u init n via d, s.perform (makeDirectories (Path.parent path)) = (.ok (), u) ∧ ns = init ++ [n] ∧
      u.files.Leads [] (pathNames base ++ init) via d ∧ u.files.HasRoom d n ∧ s'.cwd = u.cwd ∧
      s'.files = (u.files.putFile (n :: d) (.text [])).putFile (n :: d) (.text t) := by
  obtain ⟨⟨⟩, u, hmake, h⟩ := Host.perform_bind_ok h
  obtain ⟨p, v, hcreate, h⟩ := Host.perform_bind_ok h
  rw [hmake] at hdirs
  obtain ⟨init, n, via, d, hns, rfl, -, hv, hroom, rfl⟩ :=
    Host.create_inside hdirs hpath.isAbsolute hpath.names hpath.ne_nil hpath.stays hcreate
  rw [Host.perform_write] at h
  cases h
  exact ⟨u, init, n, via, d, hmake, hns, hv, hroom, rfl, rfl⟩

/-- A file that was written below the base stands where its path spells. -/
theorem writeText_ok (hpath : Below base path ns) (hbase : ∀ n ∈ pathNames base, IsPlain n)
    (hns : ∀ n ∈ ns, IsPlain n) (hconf : Confined fs₀ base D s.files)
    (h : s.perform (writeText path t) = (.ok (), s')) :
    s'.cwd = s.cwd ∧ Confined fs₀ base D s'.files ∧
      s.files.Filled (ns.reverse ++ D) t s'.files := by
  have hconf' := writeText_confined hpath hconf h
  obtain ⟨hcwd, hu, hgrown⟩ := makeDirectories_parent hpath (hpath.isPlain hbase hns) hconf
  obtain ⟨u, init, n, via, d, hdirs, rfl, hv, hroom, hcwd', hfiles⟩ := writeText_inside hpath hu h
  rw [hdirs] at hcwd hu hgrown
  have hd : n :: d = (init ++ [n]).reverse ++ D := by
    have := hu.site_below (fun k hk => hns k (List.mem_append_left _ hk)) hv.site
    rw [this, List.reverse_append]
    rfl
  have hchanged : ∀ q, u.files.lookup q = s.files.lookup q ∨
      q <:+ n :: d ∧ s.files.lookup q = none ∧ u.files.lookup q = some .directory := by
    intro q
    rcases hgrown with he | ⟨P, -, hgrown⟩
    · exact .inl (by rw [he])
    · have hP := hgrown.site
      rw [hpath.names] at hP
      rw [hd, ← hu.site_below hns hP]
      exact hgrown.changed q
  rw [← hd, hfiles]
  exact ⟨hcwd'.trans hcwd, hfiles ▸ hconf', FileSystem.filled_putFile hroom hchanged⟩

end Build

end Rehome
