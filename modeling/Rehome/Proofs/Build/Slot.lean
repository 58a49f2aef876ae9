import Rehome.Proofs.Build.Ladder
import Rehome.Proofs.FileSystem.Written

/-! Files that are written among others. Whoever writes a file has its directories made, finds the file missing
or finds it, and fills it, whatever others make meanwhile. -/

namespace Rehome

open FileSystem (pathNames startOf Outlines)
open Rehome.Path (IsPlain)

namespace FileSystem

variable {fs : FileSystem} {links : Nat} {slash : Bool} {dir p d : Location} {n : Text} {names : List Text}

/-- Where a walk to open a file ends is nothing or a file, unless it is a directory. -/
theorem lookup_of_opens {r : Stop} (h : fs.walk .openFile links slash dir names = .ok r)
    (hr : r.Opens p) : fs.lookup p = none ∨ ∃ c, fs.lookup p = some (.file c) := by
  induction links using Nat.strong_induction_on generalizing slash dir names with
  | _ links ih =>
    obtain ⟨init, n, via, d, rfl, hlen, hv, hhere, hup, hlast⟩ := opens_last h hr
    obtain ⟨-, ⟨-, hw⟩ | ⟨t, l, -, hl, -, hw⟩ | ⟨-, ⟨hnone, -, rfl⟩ | ⟨x, hx, hdir, rfl, hfile⟩⟩⟩ :=
      walk_cons_ok hhere hup hlast
    · rw [walk_nil] at hw
      exact absurd (Except.ok.inj hw ▸ hr) (Stop.not_opens_directory (n :: d))
    · exact ih l (by omega) hw
    · obtain ⟨m, e, rfl, he⟩ | ⟨y, -, he⟩ := hr
      · cases he
        exact .inl hnone
      · cases he
    · obtain ⟨m, e, rfl, he⟩ | ⟨y, -, he⟩ := hr
      · cases he
      · cases he
        obtain ⟨c, rfl⟩ : ∃ c, x = .file c := by simpa using hfile
        exact .inr ⟨c, hx⟩

/-- Where a file is, or nothing, there is room for one. -/
theorem HasRoom.of_free (hn : IsName n) (hd : fs.lookup d = some .directory)
    (h : fs.lookup (n :: d) = none ∨ ∃ c, fs.lookup (n :: d) = some (.file c)) : fs.HasRoom d n := by
  refine ⟨hn, hd, ?_⟩
  rcases h with hl | ⟨c, hl⟩ <;> simp [hl]

/-- What is put where a file is, or nothing, leaves the outline. -/
theorem Outlines.putFile {c : Content}
    (h : fs.lookup p = none ∨ ∃ c, fs.lookup p = some (.file c)) : fs.Outlines (fs.putFile p c) := by
  cases p with
  | nil => exact .refl fs
  | cons n d =>
    apply Outlines.put
    intro y hy
    rcases h with h | ⟨c', h⟩
    · rw [h] at hy
      cases hy
    · rw [h] at hy
      cases hy
      exact .file c' c

theorem SparesAllBut.putFile {c : Content}
    (h : fs.lookup p = none ∨ ∃ c, fs.lookup p = some (.file c)) : SparesAllBut p fs (fs.putFile p c) := by
  refine ⟨.putFile h, fun q x hq hx => ?_⟩
  cases p with
  | nil => exact hx
  | cons n d => rwa [FileSystem.putFile, lookup_put_of_ne hq]

end FileSystem

namespace Host

variable {s t : Host} {path : Text} {p : Location}

/-- Where a file was opened there was a file or nothing. -/
theorem lookup_of_create (h : s.answer (.create path) = (.ok p, t)) :
    (s.files.lookup p = none ∨ ∃ c, s.files.lookup p = some (.file c)) ∧
      t = { s with files := s.files.putFile p (.text []) } := by
  obtain ⟨-, ⟨r, hr, hopens⟩, ht⟩ := opens_of_create h
  exact ⟨FileSystem.lookup_of_opens (FileSystem.find_ok hr).2.2 hopens, ht⟩

/-- A file is opened by a name that is not too long, below the directory that the rest of its path leads to.
Unless a link has its name there, it is opened straight below. -/
theorem create_below {d : Location} {n : Text} (h : s.answer (.create path) = (.ok p, t))
    (hnames : pathNames path = pathNames (Path.parent path) ++ [n])
    (hstart : startOf s.cwd path = startOf s.cwd (Path.parent path)) (hn : IsPlain n)
    (hfound : s.files.find s.cwd .look (Path.parent path) = .ok (.found d .directory)) :
    n.byteSize ≤ FileSystem.maxNameBytes ∧ path.byteSize ≤ FileSystem.maxPathBytes ∧
      Path.endsInSlash path = false ∧
      ((∀ l, s.files.lookup (n :: d) ≠ some (.link l)) → p = n :: d) := by
  obtain ⟨-, ⟨r, hr, hopens⟩, -⟩ := opens_of_create h
  obtain ⟨-, hsize, hw⟩ := FileSystem.find_ok hr
  obtain ⟨via, -, hv⟩ := FileSystem.leads_of_find hfound
  rw [hnames, hstart] at hw
  obtain ⟨via', q, -, hv', hlast⟩ := FileSystem.leads_of_walk_append (List.cons_ne_nil n []) hw
  obtain ⟨-, rfl⟩ := hv'.deterministic hv
  have hslash := FileSystem.slash_eq_false_of_opens hn.ne_here hn.ne_up hlast
  refine ⟨(FileSystem.walk_cons_ok hn.ne_here hn.ne_up hlast).1, hsize, hslash, fun hlink => ?_⟩
  obtain ⟨-, ⟨-, hend⟩ | ⟨l, -, hl, -⟩ | ⟨-, ⟨-, -, rfl⟩ | ⟨x, -, -, rfl, -⟩⟩⟩ :=
    FileSystem.walk_cons_ok hn.ne_here hn.ne_up hlast
  · rw [FileSystem.walk_nil] at hend
    exact absurd (Except.ok.inj hend ▸ hopens) (Stop.not_opens_directory (n :: q))
  · exact absurd hl (hlink l)
  · obtain ⟨m, e, rfl, he⟩ | ⟨y, -, he⟩ := hopens
    · cases he
      rfl
    · cases he
  · obtain ⟨m, e, rfl, he⟩ | ⟨y, -, he⟩ := hopens
    · cases he
    · cases he
      rfl

end Host

namespace Build

variable {path : Text} {cwd d : Location} {n : Text} {F : FileSystem}

/-- The file at `path` has the name `n` in the directory `d` of `F`, to which the rest of the path leads. -/
structure Slot (cwd : Location) (F : FileSystem) (path : Text) (d : Location) (n : Text) : Prop where
  nul : '\x00' ∉ path
  size : path.byteSize ≤ FileSystem.maxPathBytes
  name : IsName n
  bytes : n.byteSize ≤ FileSystem.maxNameBytes
  slash : Path.endsInSlash path = false
  names : pathNames path = pathNames (Path.parent path) ++ [n]
  start : startOf cwd path = startOf cwd (Path.parent path)
  last : EndsPlain (Path.parent path)
  parent : F.find cwd .look (Path.parent path) = .ok (.found d .directory)
  file : ∃ c, F.lookup (n :: d) = some (.file c)

namespace Slot

variable {u : Host} (h : Slot cwd F path d n) (hu : u.files.Outlines F) (hcwd : u.cwd = cwd)
include h

theorem outlines {F' : FileSystem} (hF : F.Outlines F') : Slot cwd F' path d n := by
  obtain ⟨c, hc⟩ := h.file
  exact { h with parent := hF.find_directory h.parent, file := hF.file hc }

include hu

theorem lookup : u.files.lookup (n :: d) = none ∨ ∃ c, u.files.lookup (n :: d) = some (.file c) := by
  obtain ⟨c, hc⟩ := h.file
  exact hu.of_file hc

/-- Texts that come to the file stay within the outline. -/
theorem putFile (t : Text) :
    u.files.Outlines (u.files.putFile (n :: d) (.text t)) ∧
      (u.files.putFile (n :: d) (.text t)).Outlines F := by
  obtain ⟨c, hc⟩ := h.file
  exact ⟨.putFile (h.lookup hu), hu.put_left hc (.file _ c)⟩

/-- Once the directory is there, there is room for the file. -/
theorem hasRoom {q : Location} (hfound : u.files.find cwd .look (Path.parent path) = .ok (.found q .directory)) :
    q = d ∧ u.files.HasRoom d n := by
  obtain ⟨rfl, -⟩ := hu.find_of_directory h.parent hfound
  exact ⟨rfl, .of_free h.name (h.last.lookup hfound) (h.lookup hu)⟩

include hcwd in
/-- Once the directory is there, the file is opened. -/
theorem answer_create {q : Location}
    (hfound : u.files.find cwd .look (Path.parent path) = .ok (.found q .directory)) :
    u.answer (.create path) =
      (.ok (n :: d), { u with files := u.files.putFile (n :: d) (.text []) }) := by
  obtain ⟨rfl, hroom⟩ := h.hasRoom hu hfound
  obtain ⟨-, -, via, hlen, hv⟩ := FileSystem.find_look_directory_iff.1 hfound
  have hne : path ≠ [] := by
    intro hnil
    have hnames := h.names
    rw [hnil] at hnames
    exact absurd hnames.symm (by simp [FileSystem.pathNames])
  have hopen {r : Except SystemError Stop}
      (hstop : u.files.stride .openFile false q [n] = .stop r) : u.files.find u.cwd .openFile path = r := by
    rw [hcwd, FileSystem.find_eq_walk hne h.size, h.slash, h.names, h.start,
      FileSystem.walk_append hv hlen (List.cons_ne_nil n [])]
    exact FileSystem.walk_of_stop hstop
  rcases h.lookup hu with hl | ⟨c, hl⟩
  · have hfind : u.files.find u.cwd .openFile path = .ok (.absent q n) := by
      refine hopen ?_
      rw [FileSystem.stride_name h.name.2.1 h.name.2.2.1 (by simp) h.bytes, hl]
      simp [hroom.2.1]
    simp [Host.answer, Host.onPath, h.nul, FileSystem.create, hfind]
  · have hfind : u.files.find u.cwd .openFile path = .ok (.found (n :: q) (.file c)) := by
      refine hopen ?_
      rw [FileSystem.stride_name h.name.2.1 h.name.2.2.1 (by simp) h.bytes, hl]
      simp
    simp [Host.answer, Host.onPath, h.nul, FileSystem.create, hfind]

end Slot

section Grounds

variable {fs : FileSystem} {I : Host → Prop} {R G : Host → Host → Prop} {u : Host} {txt : Text}

/-- A file is written among others who leave its place alone. -/
theorem writeText_withstands (hg : Grounds cwd fs F I R G) (hslot : Slot cwd F path d n)
    (hlays : Lays cwd fs F (Path.parent path))
    (hput : ∀ u t, I u → I { u with files := u.files.putFile (n :: d) (.text t) } ∧
      G u { u with files := u.files.putFile (n :: d) (.text t) })
    (hu : fs.Outlines u.files) :
    (writeText path txt).Withstands I R G (fun r v => r = .ok () ∧
      v.files.find cwd .look (Path.parent path) = .ok (.found d .directory) ∧
      v.files.lookup (n :: d) = some (.file (.text txt))) u := by
  obtain ⟨s, w, hs, hscwd, hmake, hw, ⟨q, hq⟩, hF⟩ := hlays
  obtain ⟨rfl, -⟩ := hF.find_of_directory hslot.parent hq
  have hnul : '\x00' ∉ Path.parent path := fun hc =>
    hslot.nul ((FileSystem.split_fst_isPrefix path).subset hc)
  apply (makeDirectories_withstands hg hmake hscwd hs (hw.symm ▸ hq) hF hnul hu).bind
  · rintro _ v ⟨-, hv⟩
    apply Action.Withstands.bind (Q := fun r x => r = .ok (n :: q) ∧
      x.files.find cwd .look (Path.parent path) = .ok (.found q .directory))
    · intro x hR hI
      have hfound := (hg.next hv hR).find_directory hq
      have hxF := hg.below x hI
      rw [hslot.answer_create hxF (hg.cwd_eq x hI) hfound]
      obtain ⟨hI', hG⟩ := hput x [] hI
      exact ⟨hI', hG, rfl, (hslot.putFile hxF []).1.find_directory hfound⟩
    · rintro p x ⟨hp, hx⟩
      cases hp
      intro y hR hI
      have hfound := (hg.rely x y hR).find_directory hx
      have hyF := hg.below y hI
      obtain ⟨-, hroom⟩ := hslot.hasRoom hyF hfound
      obtain ⟨hI', hG⟩ := hput y txt hI
      exact ⟨hI', hG, rfl, (hslot.putFile hyF txt).1.find_directory hfound,
        FileSystem.lookup_put_self hroom⟩
    · rintro e x ⟨he, -⟩
      cases he
  · rintro e v ⟨he, -⟩
    cases he

end Grounds

end Build

end Rehome
