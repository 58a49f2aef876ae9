import Rehome.Proofs.FileSystem.Site
import Rehome.Proofs.FileSystem.Walk
import Rehome.Proofs.Program.Perform

/-! Changes that are confined to the site of a path. Whatever is done along paths that go on from this
path, and stay within it, is done inside its site, where no link leads out. -/

namespace Rehome.FileSystem

open Rehome.Path (IsPlain StaysWithin)

/-- Outside `D`, `fs` is `fs₀` with some directories more on the way there. -/
def Outside (fs₀ : FileSystem) (D : Location) (fs : FileSystem) : Prop :=
  ∀ q, ¬ D <:+ q → fs.lookup q = fs₀.lookup q ∨
    q <:+ D ∧ fs₀.lookup q = none ∧ fs.lookup q = some .directory

namespace Outside

variable {fs₀ fs : FileSystem} {D q : Location} {names : List Text}

theorem link_iff (h : Outside fs₀ D fs) (hq : ¬ D <:+ q) {target : Text} :
    fs.lookup q = some (.link target) ↔ fs₀.lookup q = some (.link target) := by
  rcases h q hq with ho | ⟨-, hnone, hdir⟩
  · rw [ho]
  · simp [hnone, hdir]

/-- Where a directory or nothing stands at a site, nothing else stands on the way there. -/
theorem on_way (h : Outside fs₀ D fs) (hsite : fs₀.Site [] names D)
    (hstands : fs.lookup D = none ∨ fs.lookup D = some .directory) (hq : q <:+ D) :
    fs.lookup q = none ∨ fs.lookup q = some .directory := by
  by_cases hD : D <:+ q
  · rwa [hq.eq_of_length (Nat.le_antisymm hq.length_le hD.length_le)]
  · rcases h q hD with he | ⟨-, -, hdir⟩
    · rw [he]
      exact hsite.on_way hq
    · exact .inr hdir

/-- Apart from the site there is nothing new but directories on the way to it. -/
theorem lookup_eq_of_apart {S : Location} (h : Outside fs₀ D fs) (hDS : ¬ D <:+ S) (hSD : ¬ S <:+ D)
    (hq : S <:+ q) : fs.lookup q = fs₀.lookup q := by
  have hout : ¬ D <:+ q := fun hDq => (List.suffix_or_suffix_of_suffix hDq hq).elim hDS hSD
  rcases h q hout with ho | ⟨hqD, -, -⟩
  · exact ho
  · exact absurd (hq.trans hqD) hSD

end Outside

/-- `fs` differs from `fs₀` only inside `D`, where it has no links, apart from directories that were
missing on the way there. -/
structure Elsewhere (fs₀ : FileSystem) (D : Location) (fs : FileSystem) : Prop where
  linkFree : fs.LinkFree D
  outside : ∀ q, ¬ D <:+ q → fs.lookup q = fs₀.lookup q ∨
    q <:+ D ∧ fs₀.lookup q = none ∧ fs.lookup q = some .directory

/-- Changes that are confined to `D` while it is the site of `base`. -/
structure Confined (fs₀ : FileSystem) (base : Text) (D : Location) (fs : FileSystem) : Prop extends
    Elsewhere fs₀ D fs where
  site : fs.Site [] (pathNames base) D

/-- The path goes along `base`, no further than to its end or from there on without leaving. -/
structure Along (base path : Text) : Prop where
  isAbsolute : Path.isAbsolute path = true
  text : path <+: base ∨ base <+: path
  names : pathNames path <+: pathNames base ∨
    ∃ ns, pathNames path = pathNames base ++ ns ∧ StaysWithin 0 ns

/-- Heads of a path that goes along the base do so, too. -/
theorem Along.head {base path head : Text} (h : Along base path) (hpre : head <+: path)
    (hnames : pathNames head <+: pathNames path) (hne : head ≠ []) : Along base head := by
  refine ⟨(isAbsolute_of_isPrefix hpre hne).trans h.isAbsolute, ?_, ?_⟩
  · rcases h.text with ht | ht
    · exact .inl (hpre.trans ht)
    · exact List.prefix_or_prefix_of_prefix hpre ht
  · rcases h.names with hb | ⟨ns, hns, hstay⟩
    · exact .inl (hnames.trans hb)
    · rw [hns] at hnames
      rcases List.prefix_or_prefix_of_prefix hnames (List.prefix_append ..) with hb | ⟨ms, hms⟩
      · exact .inl hb
      · rw [← hms, List.prefix_append_right_inj] at hnames
        exact .inr ⟨ms, hms.symm, hstay.of_isPrefix hnames⟩

theorem snoc_eq_append {α : Type} {init names ns : List α} {n : α} (h : init ++ [n] = names ++ ns)
    (hne : ns ≠ []) : ∃ m, ns = m ++ [n] ∧ init = names ++ m := by
  obtain ⟨m, k, rfl⟩ := (List.eq_nil_or_concat ns).resolve_left hne
  rw [List.concat_eq_append, ← List.append_assoc] at h
  obtain ⟨rfl, hk⟩ := List.append_inj' h rfl
  exact ⟨m, by rw [List.concat_eq_append, hk], rfl⟩

namespace Confined

variable {fs₀ fs : FileSystem} {base : Text} {D d : Location} {n : Text} {x : Node}

theorem refl (hsite : fs.Site [] (pathNames base) D) (hfree : fs.LinkFree D) : Confined fs base D fs :=
  { site := hsite, linkFree := hfree, outside := fun _ _ => .inl rfl }

/-- What is not a link may be put anywhere inside. -/
theorem put_inside (h : Confined fs₀ base D fs) (hd : D <:+ d) (hx : ∀ t, x ≠ .link t) :
    Confined fs₀ base D (fs.put d n x) := by
  by_cases hroom : fs.HasRoom d n
  swap
  · rwa [put_of_not_hasRoom hroom]
  have hin : D <:+ n :: d := hd.trans (List.suffix_cons n d)
  have hfree : ∀ y, fs.lookup (n :: d) = some y → ∃ c, y = .file c := by
    intro y hy
    cases y with
    | directory => exact absurd hy hroom.2.2
    | file c => exact ⟨c, rfl⟩
    | link t => exact absurd hy (h.linkFree _ t hin)
  refine ⟨⟨fun q t hq => ?_, fun q hq => ?_⟩, h.site.put_inside hd hroom.2.1 hfree⟩
  · by_cases he : q = n :: d
    · rw [he, lookup_put_self hroom]
      exact fun hl => hx t (Option.some.inj hl)
    · rw [lookup_put_of_ne he]
      exact h.linkFree q t hq
  · rw [lookup_put_of_ne fun (he : q = n :: d) => hq (he ▸ hin)]
    exact h.outside q hq

/-- The first missing directory on the way may be made. -/
theorem put_before (h : Confined fs₀ base D fs) {pre : List Text} {via : List Location}
    (hv : fs.Leads [] pre via d) (hpre : pre ++ [n] <+: pathNames base) (hn : IsPlain n)
    (hsize : n.byteSize ≤ maxNameBytes) (hnone : fs.lookup (n :: d) = none) :
    Confined fs₀ base D (fs.put d n .directory) := by
  obtain ⟨hsite, hon⟩ := h.site.put_directory hv hpre hn hsize hnone
  refine ⟨⟨fun q t hq => ?_, fun q hq => ?_⟩, hsite⟩
  · by_cases he : q = n :: d
    · by_cases hroom : fs.HasRoom d n
      · rw [he, lookup_put_self hroom]
        simp
      · rw [put_of_not_hasRoom hroom]
        exact h.linkFree q t hq
    · rw [lookup_put_of_ne he]
      exact h.linkFree q t hq
  · by_cases he : q = n :: d
    · subst he
      by_cases hroom : fs.HasRoom d n
      · rcases h.outside _ hq with ho | ⟨-, -, ho⟩
        · exact .inr ⟨hon, ho ▸ hnone, lookup_put_self hroom⟩
        · rw [hnone] at ho
          cases ho
      · rw [put_of_not_hasRoom hroom]
        exact h.outside _ hq
    · rw [lookup_put_of_ne he]
      exact h.outside q hq

/-- Names that go on from the site without leaving it lead where they spell. -/
theorem eq_resolveStack (h : Confined fs₀ base D fs) {ns : List Text} {via : List Location}
    (hv : fs.Leads [] (pathNames base ++ ns) via d) (hns : ∀ n ∈ ns, n ≠ [] ∧ '/' ∉ n)
    (hstay : StaysWithin 0 ns) : d = Path.resolveStack true [] ns ++ D := by
  obtain ⟨D', v₁, v₂, -, h₁, h₂⟩ := hv.split
  obtain rfl := h.site.unique h₁.site
  exact Leads.eq_resolveStack (d := []) h.linkFree h₂ (by simp) hns hstay

/-- Names that go on from the site without leaving it lead to a place inside. -/
theorem leads_inside (h : Confined fs₀ base D fs) {ns : List Text} {via : List Location}
    (hv : fs.Leads [] (pathNames base ++ ns) via d) (hns : ∀ n ∈ ns, n ≠ [] ∧ '/' ∉ n)
    (hstay : StaysWithin 0 ns) : D <:+ d := by
  rw [h.eq_resolveStack hv hns hstay]
  exact List.suffix_append ..

/-- Plain names that go on from the base have their site straight below that of the base. -/
theorem site_below (h : Confined fs₀ base D fs) {ns : List Text} (hns : ∀ n ∈ ns, IsPlain n)
    {P : Location} (hP : fs.Site [] (pathNames base ++ ns) P) : P = ns.reverse ++ D := by
  obtain ⟨init, rest, via, p, hall, hv, rfl, hplain, hnone⟩ := hP
  rcases List.append_eq_append_iff.1 hall with ⟨m, rfl, rfl⟩ | ⟨m, hbase, rfl⟩
  · obtain ⟨D', v₁, v₂, -, h₁, h₂⟩ := hv.split
    obtain rfl := h.site.unique h₁.site
    have hm := h₂.eq_of_plain h.linkFree List.suffix_rfl fun n hn => hns n (List.mem_append_left _ hn)
    rw [hm, List.reverse_append, List.append_assoc]
  · have hsite : fs.Site [] (pathNames base) (m.reverse ++ p) := by
      refine ⟨init, m, via, p, hbase, hv, rfl, fun n hn => hplain n (List.mem_append_left _ hn), ?_⟩
      intro n hn
      exact hnone n (by rw [List.head?_append, Option.mem_def.1 hn]; rfl)
    rw [h.site.unique hsite, List.reverse_append, List.append_assoc]

end Confined

end Rehome.FileSystem

namespace Rehome.Host

open FileSystem
open Rehome.Path (IsPlain StaysWithin)

variable {fs₀ : FileSystem} {base : Text} {D : Location} {s : Host} {path : Text}

theorem confined_makeDirectory (h : Confined fs₀ base D s.files) (hpath : Along base path) :
    Confined fs₀ base D (s.answer (.makeDirectory path)).2.files := by
  rcases s.answer_makeDirectory path with ⟨e, he⟩ | ⟨d, n, -, hfind, he⟩ <;> rw [he]
  · exact h
  obtain ⟨init, via, hnames, hv, hn, hsize, hnone⟩ := leads_of_absent hfind
  rw [startOf_of_isAbsolute hpath.isAbsolute] at hv
  have halong := hpath.names
  rw [hnames] at halong
  rcases halong with hpre | ⟨ns, hns, hstay⟩
  · exact h.put_before hv hpre hn hsize hnone
  by_cases hnil : ns = []
  · exact h.put_before hv (by rw [hns, hnil, List.append_nil]) hn hsize hnone
  obtain ⟨ns, rfl, rfl⟩ := snoc_eq_append hns hnil
  have hnames' : ∀ k ∈ ns, k ≠ [] ∧ '/' ∉ k := fun k hk =>
    mem_pathNames (hnames ▸ List.mem_append_left _ (List.mem_append_right _ hk))
  exact h.put_inside (h.leads_inside hv hnames' (hstay.of_isPrefix (List.prefix_append ..))) (by simp)

/-- A walk to open a file inside does not leave, and ends at a name that has one unless it ends in a
directory. -/
theorem openFile_inside {links : Nat} {slash : Bool} {d : Location} {n : Text} {r : Stop} {fs : FileSystem}
    (hfree : fs.LinkFree D) (hd : D <:+ d) (h : fs.walk .openFile links slash d [n] = .ok r) :
    (n ≠ Path.here ∧ n ≠ Path.up ∧ (r = .absent d n ∧ fs.lookup (n :: d) = none ∨
      ∃ x, r = .found (n :: d) x ∧ fs.lookup (n :: d) = some x)) ∨ ∃ q, r = .found q .directory := by
  by_cases hhere : n = Path.here
  · subst hhere
    rw [walk_here, walk_nil] at h
    exact .inr ⟨d, (Except.ok.inj h).symm⟩
  by_cases hup : n = Path.up
  · subst hup
    rw [walk_up, walk_nil] at h
    exact .inr ⟨d.tail, (Except.ok.inj h).symm⟩
  obtain ⟨-, ⟨-, hw⟩ | ⟨t, -, hlink, -⟩ | ⟨-, ⟨hl, -, hr⟩ | ⟨x, hl, -, hr, -⟩⟩⟩ :=
    walk_cons_ok hhere hup h
  · rw [walk_nil] at hw
    exact .inr ⟨_, (Except.ok.inj hw).symm⟩
  · exact absurd hlink (hfree _ t (hd.trans (List.suffix_cons n d)))
  · exact .inl ⟨hhere, hup, .inl ⟨hr, hl⟩⟩
  · exact .inl ⟨hhere, hup, .inr ⟨x, hr, hl⟩⟩

theorem isName_of_mem_pathNames {n : Text} (hhere : n ≠ Path.here) (hup : n ≠ Path.up)
    (hmem : n ∈ pathNames path) (hnul : '\x00' ∉ path) : IsName n := by
  obtain ⟨hne, hslash⟩ := mem_pathNames hmem
  refine ⟨hne, hhere, hup, hslash, fun hc => hnul ?_⟩
  exact Path.mem_of_mem_segments (List.mem_filter.1 hmem).1 hc

/-- A file that is opened inside stands, by its last name, where the names before that lead. -/
theorem create_inside {ns : List Text} {p : Location} {t : Host} (h : Confined fs₀ base D s.files)
    (habs : Path.isAbsolute path = true) (hns : pathNames path = pathNames base ++ ns) (hne : ns ≠ [])
    (hstay : StaysWithin 0 ns) (hcreate : s.answer (.create path) = (.ok p, t)) :
    ∃ init n via d, ns = init ++ [n] ∧ p = n :: d ∧ D <:+ d ∧
      s.files.Leads [] (pathNames base ++ init) via d ∧ s.files.HasRoom d n ∧
      t = { s with files := s.files.putFile p (.text []) } := by
  rcases s.answer_create path with ⟨e, he⟩ | ⟨p', hnul, hfind, he⟩ <;> rw [he] at hcreate
  · cases hcreate
  cases hcreate
  obtain ⟨r, hr, hrp⟩ : ∃ r, s.files.find s.cwd .openFile path = .ok r ∧
      ((∃ n d, p = n :: d ∧ r = .absent d n) ∨ ∃ x, x ≠ .directory ∧ r = .found p x) := by
    rcases hfind with ⟨n, d, hp, hf⟩ | ⟨x, hx, hf⟩
    · exact ⟨_, hf, .inl ⟨n, d, hp, rfl⟩⟩
    · exact ⟨_, hf, .inr ⟨x, hx, rfl⟩⟩
  have hw := (find_ok hr).2.2
  rw [startOf_of_isAbsolute habs, hns] at hw
  obtain ⟨init, n, via, d, hnames, -, hv, hlast⟩ :=
    leads_of_walk_ne_nil (List.append_ne_nil_of_right_ne_nil _ hne) hw
  obtain ⟨ns, rfl, rfl⟩ := snoc_eq_append hnames.symm hne
  have hnames' : ∀ k ∈ ns, k ≠ [] ∧ '/' ∉ k := fun k hk =>
    mem_pathNames (hns ▸ List.mem_append_right _ (List.mem_append_left _ hk))
  have hd := h.leads_inside hv hnames' (hstay.of_isPrefix (List.prefix_append ..))
  have hdir := hv.lookup_eq rfl
  have hmem : n ∈ pathNames path := by simp [hns]
  refine ⟨ns, n, via, d, rfl, ?_⟩
  rcases openFile_inside h.linkFree hd hlast with ⟨hhere, hup, ⟨rfl, hl⟩ | ⟨x, rfl, hl⟩⟩ | ⟨q, rfl⟩
  · have hn := isName_of_mem_pathNames hhere hup hmem hnul
    obtain ⟨k, e, rfl, hke⟩ | ⟨x, -, hx⟩ := hrp
    · cases hke
      exact ⟨rfl, hd, hv, ⟨hn, hdir, by simp [hl]⟩, rfl⟩
    · cases hx
  · have hn := isName_of_mem_pathNames hhere hup hmem hnul
    obtain ⟨k, e, rfl, hke⟩ | ⟨y, hy, hfound⟩ := hrp
    · cases hke
    · cases hfound
      exact ⟨rfl, hd, hv, ⟨hn, hdir, by simpa [hl] using hy⟩, rfl⟩
  · obtain ⟨k, e, rfl, hke⟩ | ⟨y, hy, hfound⟩ := hrp
    · cases hke
    · cases hfound
      exact absurd rfl hy

theorem confined_create {ns : List Text} (h : Confined fs₀ base D s.files)
    (habs : Path.isAbsolute path = true) (hns : pathNames path = pathNames base ++ ns) (hne : ns ≠ [])
    (hstay : StaysWithin 0 ns) :
    Confined fs₀ base D (s.answer (.create path)).2.files ∧
      ∀ p, (s.answer (.create path)).1 = .ok p → ∃ n d, p = n :: d ∧ D <:+ d := by
  rcases hcreate : s.answer (.create path) with ⟨e | p, t⟩
  · rcases s.answer_create path with ⟨e', he⟩ | ⟨p, -, -, he⟩ <;> rw [hcreate] at he <;> cases he
    exact ⟨h, by simp⟩
  · obtain ⟨-, n, -, d, -, rfl, hd, -, -, rfl⟩ := create_inside h habs hns hne hstay hcreate
    exact ⟨h.put_inside hd (by simp), fun p hp => ⟨n, d, (Except.ok.inj hp).symm, hd⟩⟩

/-! ### Out of reach -/

/-- A directory of this path is there to be looked at, or could be made. -/
def WithinReach (s : Host) (base : Text) : Prop :=
  ∃ D, s.files.Site [] (pathNames base) D ∧
    (s.files.lookup D = none ∨ s.files.isDirectory s.cwd base = true)

theorem withinReach_of_find {purpose : Purpose} {base : Text} {ns : List Text} {r : Stop}
    (h : s.files.find s.cwd purpose path = .ok r) (habs : Path.isAbsolute base = true)
    (hbase : base <+: path) (hnames : pathNames path = pathNames base ++ ns) (hns : ns ≠ []) :
    s.WithinReach base := by
  have hne : base ≠ [] := by
    rintro rfl
    cases habs
  obtain ⟨D, hD⟩ := find_of_isPrefix h hbase hne hnames hns
  obtain ⟨via, -, hv⟩ := leads_of_find hD
  rw [startOf_of_isAbsolute habs] at hv
  exact ⟨D, hv.site, .inr (isDirectory_eq_true_iff.2 ⟨D, hD⟩)⟩

variable {base : Text} (hbase : ¬ s.WithinReach base)
include hbase

theorem makeDirectory_of_not_withinReach (habs : Path.isAbsolute base = true)
    (hplain : ∀ n ∈ pathNames base, IsPlain n) (hpath : Along base path) :
    (s.answer (.makeDirectory path)).2 = s := by
  rcases s.answer_makeDirectory path with ⟨e, he⟩ | ⟨d, n, -, hfind, -⟩
  · rw [he]
  exfalso
  apply hbase
  obtain ⟨init, via, hnames, hv, hn, -, hnone⟩ := leads_of_absent hfind
  rw [startOf_of_isAbsolute hpath.isAbsolute] at hv
  have hsite : pathNames path <+: pathNames base → s.WithinReach base := fun hpre => by
    obtain ⟨D, hD, hmiss⟩ := Site.of_none hv (hnames ▸ hpre) hplain hnone
    exact ⟨D, hD, .inl hmiss⟩
  rcases hpath.names with hpre | ⟨ns, hns, -⟩
  · exact hsite hpre
  by_cases hnil : ns = []
  · exact hsite (by rw [hns, hnil, List.append_nil])
  rcases hpath.text with htext | htext
  · exact absurd (eq_nil_of_isPrefix htext hns) hnil
  · exact withinReach_of_find hfind habs htext hns hnil

theorem create_of_not_withinReach {ns : List Text} (habs : Path.isAbsolute base = true)
    (htext : base <+: path) (hns : pathNames path = pathNames base ++ ns) (hne : ns ≠ []) :
    ∃ e, s.answer (.create path) = (.error e, s) := by
  rcases s.answer_create path with he | ⟨p, -, hfind, -⟩
  · exact he
  exfalso
  apply hbase
  rcases hfind with ⟨_, _, _, hf⟩ | ⟨_, _, hf⟩
  · exact withinReach_of_find hf habs htext hns hne
  · exact withinReach_of_find hf habs htext hns hne

end Rehome.Host
