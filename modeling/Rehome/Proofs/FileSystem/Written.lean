import Rehome.Proofs.Build.Writing

/-! What was written is what is read. A file that is opened for writing may be reached through links, and
the link at the end of its path may name a file that is still missing. Filling it changes no way, so
whoever looks along the same path comes to the same place. -/

namespace Rehome

open FileSystem (pathNames)

namespace Stop

/-- A walk that ends like this to open a file has come to the file `p`, or to where it is missing. -/
def Opens (r : Stop) (p : Location) : Prop :=
  (∃ n d, p = n :: d ∧ r = .absent d n) ∨ ∃ x, x ≠ .directory ∧ r = .found p x

theorem not_opens_directory {p : Location} (q : Location) : ¬ Opens (.found q .directory) p := by
  rintro (⟨n, d, -, h⟩ | ⟨x, hx, h⟩)
  · cases h
  · cases h
    exact hx rfl

end Stop

namespace FileSystem

variable {fs fs' : FileSystem} {links : Nat} {slash : Bool} {dir p d : Location} {n : Text}
  {names : List Text}

/-- What is known of a file that was opened: there is room for it, and where a text fills it, a walk of the
same kind finds it. -/
structure Opening (fs : FileSystem) (links : Nat) (slash : Bool) (dir : Location) (names : List Text)
    (p : Location) : Prop where
  room : ∃ n d, p = n :: d ∧ fs.HasRoom d n ∧ ∀ t, fs.lookup p ≠ some (.link t)
  found : ∀ fs' c, fs.KeepsWays fs' → fs'.lookup p = some (.file c) →
    fs'.walk .look links slash dir names = .ok (.found p (.file c))

/-- A slash behind the last name asks for a directory, and no directory is opened. -/
theorem slash_eq_false_of_opens {r : Stop} (hhere : n ≠ Path.here) (hup : n ≠ Path.up)
    (h : fs.walk .openFile links slash dir [n] = .ok r) : slash = false := by
  cases slash with
  | false => rfl
  | true =>
    have hstop : fs.stride .openFile true dir [n] = .stop (.error .isDirectory) := by
      unfold stride
      rw [if_neg hhere, if_neg hup, if_pos ⟨rfl, rfl, rfl⟩]
    rw [walk_of_stop hstop] at h
    cases h

/-- Whatever the walk is for, at its last name it finds the file that stands there. -/
theorem walk_file {purpose : Purpose} {c : Content} (hhere : n ≠ Path.here) (hup : n ≠ Path.up)
    (hsize : n.byteSize ≤ maxNameBytes) (hfile : fs.lookup (n :: dir) = some (.file c)) :
    fs.walk purpose links false dir [n] = .ok (.found (n :: dir) (.file c)) := by
  refine walk_of_stop ?_
  rw [stride_name hhere hup (by simp) hsize, hfile]
  rfl

/-- Looking for the last name follows the link that stands there. -/
theorem walk_look_link {t : Text} (hhere : n ≠ Path.here) (hup : n ≠ Path.up)
    (hsize : n.byteSize ≤ maxNameBytes) (hlink : fs.lookup (n :: dir) = some (.link t)) :
    fs.walk .look (links + 1) slash dir [n] =
      fs.walk .look links (slash || Path.endsInSlash t) (startOf dir t) (pathNames t ++ []) := by
  have hs : fs.stride .look slash dir [n] = .link dir t [] := by
    rw [stride_name hhere hup (by simp) hsize, hlink]
    rfl
  rw [walk_of_link hs]
  rfl

/-- A walk that opens a file has a last name, which is neither `.` nor `..`. -/
theorem opens_last {r : Stop} (h : fs.walk .openFile links slash dir names = .ok r) (hr : r.Opens p) :
    ∃ init n via d, names = init ++ [n] ∧ via.length ≤ links ∧ fs.Leads dir init via d ∧
      n ≠ Path.here ∧ n ≠ Path.up ∧ fs.walk .openFile (links - via.length) slash d [n] = .ok r := by
  have hne : names ≠ [] := by
    rintro rfl
    rw [walk_nil] at h
    exact Stop.not_opens_directory dir (Except.ok.inj h ▸ hr)
  obtain ⟨init, n, via, d, hnames, hlen, hv, hlast⟩ := leads_of_walk_ne_nil hne h
  refine ⟨init, n, via, d, hnames, hlen, hv, ?_, ?_, hlast⟩
  · rintro rfl
    rw [walk_here, walk_nil] at hlast
    exact Stop.not_opens_directory d (Except.ok.inj hlast ▸ hr)
  · rintro rfl
    rw [walk_up, walk_nil] at hlast
    exact Stop.not_opens_directory d.tail (Except.ok.inj hlast ▸ hr)

theorem opening_of_walk {r : Stop} (hlinks : fs.ProperLinks)
    (hnames : ∀ n ∈ names, n ≠ Path.here → n ≠ Path.up → IsName n)
    (h : fs.walk .openFile links slash dir names = .ok r) (hr : r.Opens p) :
    fs.Opening links slash dir names p := by
  -- By the number of links: the last name may be that of a link, whose target is then walked along.
  induction links using Nat.strong_induction_on generalizing slash dir names with
  | _ links ih =>
    obtain ⟨init, n, via, d, rfl, hlen, hv, hhere, hup, hlast⟩ := opens_last h hr
    have hname := hnames n (List.mem_append_right _ List.mem_cons_self) hhere hup
    -- The names before the last one lead to the same directory once the file is filled.
    have hfound : ∀ fs' r', fs.KeepsWays fs' →
        fs'.walk .look (links - via.length) slash d [n] = r' →
        fs'.walk .look links slash dir (init ++ [n]) = r' := fun fs' r' hkeep hw =>
      (walk_append (hv.mono hkeep) hlen (List.cons_ne_nil n [])).trans hw
    have hslash := slash_eq_false_of_opens hhere hup hlast
    obtain ⟨hsize, ⟨-, hw⟩ | ⟨t, l, hl, hlinks', -, hw⟩ | ⟨-, hend⟩⟩ := walk_cons_ok hhere hup hlast
    · rw [walk_nil] at hw
      exact absurd (Except.ok.inj hw ▸ hr) (Stop.not_opens_directory (n :: d))
    · have htarget : ∀ k ∈ pathNames t ++ [], k ≠ Path.here → k ≠ Path.up → IsName k :=
        fun k hk hhere hup =>
          Host.isName_of_mem_pathNames hhere hup (by simpa using hk) (hlinks _ t hl)
      obtain ⟨hroom, hfile⟩ := ih l (by omega) htarget hw
      refine ⟨hroom, fun fs' c hkeep hc => hfound fs' _ hkeep ?_⟩
      rw [hlinks', walk_look_link hhere hup hsize (hkeep _ _ hl (by simp))]
      simpa using hfile fs' c hkeep hc
    · have hp : p = n :: d ∧ fs.HasRoom d n ∧ ∀ t, fs.lookup p ≠ some (.link t) := by
        rcases hend with ⟨hl, hdir, rfl⟩ | ⟨x, hl, hx, rfl, hfile⟩
        · obtain ⟨m, e, rfl, he⟩ | ⟨x, -, he⟩ := hr
          · cases he
            exact ⟨rfl, ⟨hname, hdir, by simp [hl]⟩, by simp [hl]⟩
          · cases he
        · obtain ⟨m, e, rfl, he⟩ | ⟨y, -, he⟩ := hr
          · cases he
          · cases he
            obtain ⟨c, rfl⟩ : ∃ c, x = .file c := by simpa using hfile
            exact ⟨rfl, ⟨hname, lookup_parent hl, by simp [hl]⟩, by simp [hl]⟩
      obtain ⟨rfl, hroom, hno⟩ := hp
      refine ⟨⟨n, d, rfl, hroom, hno⟩, fun fs' c hkeep hc => hfound fs' _ hkeep ?_⟩
      rw [hslash]
      exact walk_file hhere hup hsize hc

end FileSystem

namespace Host

variable {s t : Host} {path x : Text} {p : Location}

/-- A file is opened where its path leads, and is emptied. -/
theorem opens_of_create (h : s.answer (.create path) = (.ok p, t)) :
    '\x00' ∉ path ∧ (∃ r, s.files.find s.cwd .openFile path = .ok r ∧ r.Opens p) ∧
      t = { s with files := s.files.putFile p (.text []) } := by
  rcases s.answer_create path with ⟨e, he⟩ | ⟨p', hnul, hfind, he⟩ <;> rw [he] at h
  · cases h
  cases h
  refine ⟨hnul, ?_, rfl⟩
  rcases hfind with ⟨n, d, hp, hf⟩ | ⟨x, hx, hf⟩
  · exact ⟨_, hf, .inl ⟨n, d, hp, rfl⟩⟩
  · exact ⟨_, hf, .inr ⟨x, hx, rfl⟩⟩

/-- No call makes a link. -/
theorem answer_properLinks (hlinks : s.files.ProperLinks) (c : Call) : (s.answer c).2.files.ProperLinks := by
  have hput (p : Location) (y : Content) : (s.files.putFile p y).ProperLinks := by
    cases p with
    | nil => exact hlinks
    | cons n d => exact hlinks.put (by simp) d n
  cases c with
  | read path => rwa [s.answer_read_host path]
  | makeDirectory path =>
    rcases s.answer_makeDirectory path with ⟨e, he⟩ | ⟨d, n, -, -, he⟩ <;> rw [he]
    · exact hlinks
    · exact hlinks.put (by simp) d n
  | create path =>
    rcases s.answer_create path with ⟨e, he⟩ | ⟨p, -, -, he⟩ <;> rw [he]
    · exact hlinks
    · exact hput p _
  | write p t => exact hput p _
  | removeTree path =>
    have hext := FileSystem.removeTree_extends s.files s.cwd path
    show (s.removeTree path).2.files.ProperLinks
    unfold removeTree
    split
    · exact hlinks
    · split <;> next hr => exact hlinks.of_extends (by rwa [hr] at hext)
  | isDirectory path => exact hlinks
  | «exists» path => exact hlinks
  | realPath path => exact hlinks
  | files path => exact hlinks
  | log line => exact hlinks
  | workingDirectory => exact hlinks

theorem run_properLinks {α : Type} (hlinks : s.files.ProperLinks) (x : Program α) :
    (run x s).2.files.ProperLinks := by
  induction x generalizing s with
  | done a => exact hlinks
  | call c next ih => exact ih _ (answer_properLinks hlinks c)

theorem perform_properLinks {α : Type} {x : Action α} {r : Except Fault α} (hlinks : s.files.ProperLinks)
    (h : s.perform x = (r, t)) : t.files.ProperLinks := by
  have hrun := run_properLinks hlinks x.run
  rwa [show run x.run s = (r, t) from h] at hrun

/-- A file that was opened and filled is found by the path that it was opened by. -/
theorem find_of_create (hlinks : s.files.ProperLinks) (h : s.answer (.create path) = (.ok p, t)) :
    (t.files.putFile p (.text x)).find s.cwd .look path = .ok (.found p (.file (.text x))) := by
  obtain ⟨hnul, ⟨r, hr, hopens⟩, rfl⟩ := opens_of_create h
  obtain ⟨hne, hsize, hw⟩ := FileSystem.find_ok hr
  obtain ⟨⟨n, d, rfl, hroom, hno⟩, hfound⟩ := FileSystem.opening_of_walk hlinks
    (fun n hn hhere hup => isName_of_mem_pathNames hhere hup hn hnul) hw hopens
  have hfill := FileSystem.filled_putFile (t := x) hroom fun _ => .inl rfl
  rw [FileSystem.find_eq_walk hne hsize]
  refine hfound _ _ (fun q y hq hfile => hfill.lookup_eq ?_ hq) hfill.file
  -- At the place itself there was neither a directory nor a link.
  rintro rfl
  cases y with
  | directory => exact hroom.2.2 hq
  | file c => exact hfile c rfl
  | link t => exact hno t hq

end Host

namespace Build

variable {s s' : Host} {path t : Text}

theorem makeDirectories_cwd (s : Host) (path : Text) : (s.perform (makeDirectories path)).2.cwd = s.cwd := by
  have hkeeps : (makeDirectories path).Keeps (fun u => u.cwd = s.cwd) fun _ => True :=
    makeDirectories_keeps_heads fun q _ _ _ u hcwd => (u.answer_makeDirectory_cwd q).trans hcwd
  exact (Host.run_keeps hkeeps rfl).1

/-- A text that was written is read by the same path. -/
theorem read_of_writeText (hlinks : s.files.ProperLinks) (h : s.perform (writeText path t) = (.ok (), s')) :
    s'.cwd = s.cwd ∧ s'.files.read s'.cwd path = .ok (.text t) := by
  obtain ⟨⟨⟩, u, hmake, h⟩ := Host.perform_bind_ok h
  obtain ⟨p, v, hcreate, h⟩ := Host.perform_bind_ok h
  have hcwd : u.cwd = s.cwd := by simpa only [hmake] using makeDirectories_cwd s (Path.parent path)
  have hu := Host.perform_properLinks hlinks hmake
  have hfind := Host.find_of_create (x := t) hu hcreate
  have hv : v.cwd = u.cwd := by
    rcases u.answer_create path with ⟨e, he⟩ | ⟨p', -, -, he⟩ <;> rw [← Host.perform_create, hcreate] at he <;>
      cases he
    rfl
  rw [Host.perform_write] at h
  cases h
  refine ⟨hv.trans hcwd, ?_⟩
  show FileSystem.read _ v.cwd path = _
  rw [FileSystem.read, hv, hfind]

end Build

end Rehome
