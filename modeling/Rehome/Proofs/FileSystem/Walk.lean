import Rehome.Proofs.FileSystem.Leads

/-! Walks in terms of where names lead. A walk to a directory follows all of its names, any other
follows all but the last, and both give up after too many links. -/

namespace Rehome.FileSystem

open Rehome.Path (IsPlain)

section Walk

variable {fs : FileSystem} {purpose : Purpose} {links : Nat} {slash : Bool} {dir p : Location}
  {n : Text} {names rest : List Text} {via : List Location}

theorem walk_of_stop {r : Except SystemError Stop}
    (h : fs.stride purpose slash dir names = .stop r) :
    fs.walk purpose links slash dir names = r := by
  unfold walk
  rw [h]

theorem walk_of_link {target : Text} (h : fs.stride purpose slash dir names = .link p target rest) :
    fs.walk purpose links slash dir names =
      match links with
      | 0 => .error .tooManyLinks
      | links + 1 =>
        fs.walk purpose links (slash || (rest = [] && Path.endsInSlash target)) (startOf p target)
          (pathNames target ++ rest) := by
  conv_lhs => unfold walk
  rw [h]
  cases links <;> rfl

theorem walk_congr {dir' : Location} {names' : List Text}
    (h : fs.stride purpose slash dir names = fs.stride purpose slash dir' names') :
    fs.walk purpose links slash dir names = fs.walk purpose links slash dir' names' := by
  unfold walk
  rw [h]

@[simp] theorem walk_nil : fs.walk purpose links slash dir [] = .ok (.found dir .directory) :=
  walk_of_stop rfl

theorem stride_here :
    fs.stride purpose slash dir (Path.here :: rest) = fs.stride purpose slash dir rest := by
  conv_lhs => unfold stride
  exact if_pos rfl

theorem stride_up :
    fs.stride purpose slash dir (Path.up :: rest) = fs.stride purpose slash dir.tail rest := by
  conv_lhs => unfold stride
  exact (if_neg (by decide)).trans (if_pos rfl)

@[simp] theorem walk_here :
    fs.walk purpose links slash dir (Path.here :: rest) = fs.walk purpose links slash dir rest :=
  walk_congr stride_here

@[simp] theorem walk_up :
    fs.walk purpose links slash dir (Path.up :: rest) =
      fs.walk purpose links slash dir.tail rest :=
  walk_congr stride_up

/-- A path with a slash at its end is not opened. -/
theorem stride_slash (hhere : n ≠ Path.here) (hup : n ≠ Path.up)
    (hopen : rest = [] ∧ slash = true ∧ purpose = .openFile) :
    fs.stride purpose slash dir (n :: rest) = .stop (.error .isDirectory) := by
  conv_lhs => unfold stride
  exact (if_neg hhere).trans ((if_neg hup).trans (if_pos hopen))

theorem stride_long (hhere : n ≠ Path.here) (hup : n ≠ Path.up)
    (hopen : ¬ (rest = [] ∧ slash = true ∧ purpose = .openFile)) (hsize : maxNameBytes < n.byteSize) :
    fs.stride purpose slash dir (n :: rest) = .stop (.error .nameTooLong) := by
  conv_lhs => unfold stride
  exact (if_neg hhere).trans ((if_neg hup).trans ((if_neg hopen).trans (if_pos hsize)))

/-- What the step to a name does, once it is neither `.` nor `..`. -/
theorem stride_name (hhere : n ≠ Path.here) (hup : n ≠ Path.up)
    (hopen : ¬ (rest = [] ∧ slash = true ∧ purpose = .openFile)) (hsize : n.byteSize ≤ maxNameBytes) :
    fs.stride purpose slash dir (n :: rest) =
      match fs.lookup (n :: dir) with
      | none =>
        .stop (if rest = [] ∧ fs.lookup dir = some .directory then .ok (.absent dir n)
          else .error .notFound)
      | some .directory => fs.stride purpose slash (n :: dir) rest
      | some (.file c) =>
        .stop (if rest = [] ∧ (!slash ∨ purpose = .nameEntry) then .ok (.found (n :: dir) (.file c))
          else .error .notDirectory)
      | some (.link target) =>
        if rest = [] ∧ (purpose = .nameEntry ∨ (purpose = .lookAtLink ∧ !slash)) then
          .stop (.ok (.found (n :: dir) (.link target)))
        else .link dir target rest := by
  conv_lhs => unfold stride
  exact (if_neg hhere).trans ((if_neg hup).trans
    ((if_neg hopen).trans (if_neg (Nat.not_lt.2 hsize))))

/-- A walk that gets somewhere goes on through a directory, follows a link, or ends at its last name. -/
theorem walk_cons_ok {r : Stop} (hhere : n ≠ Path.here) (hup : n ≠ Path.up)
    (h : fs.walk purpose links slash dir (n :: rest) = .ok r) :
    n.byteSize ≤ maxNameBytes ∧
      (fs.lookup (n :: dir) = some .directory ∧
          fs.walk purpose links slash (n :: dir) rest = .ok r ∨
        (∃ target l, fs.lookup (n :: dir) = some (.link target) ∧ links = l + 1 ∧
          ¬ (rest = [] ∧ (purpose = .nameEntry ∨ (purpose = .lookAtLink ∧ !slash))) ∧
          fs.walk purpose l (slash || (rest = [] && Path.endsInSlash target)) (startOf dir target)
            (pathNames target ++ rest) = .ok r) ∨
        rest = [] ∧
          (fs.lookup (n :: dir) = none ∧ fs.lookup dir = some .directory ∧ r = .absent dir n ∨
            ∃ x, fs.lookup (n :: dir) = some x ∧ x ≠ .directory ∧ r = .found (n :: dir) x ∧
              ((∃ c, x = .file c) ∨ purpose = .nameEntry ∨ purpose = .lookAtLink))) := by
  by_cases hopen : rest = [] ∧ slash = true ∧ purpose = .openFile
  · rw [walk_of_stop (stride_slash hhere hup hopen)] at h
    cases h
  by_cases hsize : maxNameBytes < n.byteSize
  · rw [walk_of_stop (stride_long hhere hup hopen hsize)] at h
    cases h
  have hs : fs.stride purpose slash dir (n :: rest) = _ :=
    stride_name hhere hup hopen (Nat.not_lt.1 hsize)
  refine ⟨Nat.not_lt.1 hsize, ?_⟩
  split at hs
  · next hl =>
    rw [walk_of_stop hs] at h
    split at h
    · next hc => exact .inr (.inr ⟨hc.1, .inl ⟨hl, hc.2, (Except.ok.inj h).symm⟩⟩)
    · cases h
  · next hl => exact .inl ⟨hl, walk_congr hs ▸ h⟩
  · next c hl =>
    rw [walk_of_stop hs] at h
    split at h
    · next hc =>
      exact .inr (.inr ⟨hc.1, .inr ⟨_, hl, by simp, (Except.ok.inj h).symm, .inl ⟨c, rfl⟩⟩⟩)
    · cases h
  · next target hl =>
    split at hs
    · next hc =>
      rw [walk_of_stop hs] at h
      exact .inr (.inr ⟨hc.1, .inr ⟨_, hl, by simp, (Except.ok.inj h).symm,
        .inr (hc.2.imp_right And.left)⟩⟩)
    · next hc =>
      rw [walk_of_link hs] at h
      cases links with
      | zero => cases h
      | succ l => exact .inr (.inl ⟨target, l, hl, rfl, hc, h⟩)

/-- A walk that ends in a directory follows its names to their end. -/
theorem leads_of_walk (h : fs.walk purpose links slash dir names = .ok (.found p .directory)) :
    ∃ via, via.length ≤ links ∧ fs.Leads dir names via p := by
  -- The links come first: following one makes the list of names longer.
  induction links using Nat.strong_induction_on generalizing slash dir names with
  | _ links ihl =>
    induction names generalizing dir with
    | nil =>
      rw [walk_nil] at h
      cases h
      exact ⟨[], Nat.zero_le _, .nil _⟩
    | cons n rest ih =>
      by_cases hhere : n = Path.here
      · subst hhere
        obtain ⟨via, hlen, hv⟩ := ih (walk_here ▸ h)
        exact ⟨via, hlen, .here hv⟩
      by_cases hup : n = Path.up
      · subst hup
        obtain ⟨via, hlen, hv⟩ := ih (walk_up ▸ h)
        exact ⟨via, hlen, .up hv⟩
      obtain ⟨hsize, ⟨hl, hw⟩ | ⟨target, l, hl, rfl, -, hw⟩ | ⟨-, ⟨-, -, hr⟩ | ⟨x, -, hx, hr, -⟩⟩⟩ :=
        walk_cons_ok hhere hup h
      · obtain ⟨via, hlen, hv⟩ := ih hw
        exact ⟨via, hlen, .down hhere hup hsize hl hv⟩
      · obtain ⟨via, hlen, hv⟩ := ihl l (Nat.lt_succ_self l) hw
        exact ⟨_ :: via, Nat.succ_le_succ hlen, .link hhere hup hsize hl hv⟩
      · cases hr
      · cases hr
        exact absurd rfl hx

/-- A walk that gets somewhere along more names was led to where these begin. -/
theorem leads_of_walk_append {r : Stop} (hrest : rest ≠ [])
    (h : fs.walk purpose links slash dir (names ++ rest) = .ok r) :
    ∃ via p, via.length ≤ links ∧ fs.Leads dir names via p ∧
      fs.walk purpose (links - via.length) slash p rest = .ok r := by
  induction links using Nat.strong_induction_on generalizing slash dir names with
  | _ links ihl =>
    induction names generalizing dir with
    | nil => exact ⟨[], dir, Nat.zero_le _, .nil _, h⟩
    | cons n names ih =>
      rw [List.cons_append] at h
      by_cases hhere : n = Path.here
      · subst hhere
        obtain ⟨via, p, hlen, hv, hw⟩ := ih (walk_here ▸ h)
        exact ⟨via, p, hlen, .here hv, hw⟩
      by_cases hup : n = Path.up
      · subst hup
        obtain ⟨via, p, hlen, hv, hw⟩ := ih (walk_up ▸ h)
        exact ⟨via, p, hlen, .up hv, hw⟩
      have hmore : names ++ rest ≠ [] := List.append_ne_nil_of_right_ne_nil _ hrest
      obtain ⟨hsize, ⟨hl, hw⟩ | ⟨target, l, hl, rfl, -, hw⟩ | ⟨hnil, -⟩⟩ :=
        walk_cons_ok hhere hup h
      · obtain ⟨via, p, hlen, hv, hw⟩ := ih hw
        exact ⟨via, p, hlen, .down hhere hup hsize hl hv, hw⟩
      · rw [decide_eq_false hmore, Bool.false_and, Bool.or_false, ← List.append_assoc] at hw
        obtain ⟨via, p, hlen, hv, hw⟩ := ihl l (Nat.lt_succ_self l) hw
        refine ⟨_ :: via, p, Nat.succ_le_succ hlen, .link hhere hup hsize hl hv, ?_⟩
        rwa [List.length_cons, Nat.add_sub_add_right]
      · exact absurd hnil hmore

/-- A walk along more names goes on from where the first of them lead. -/
theorem walk_append (h : fs.Leads dir names via p) (hlen : via.length ≤ links) (hrest : rest ≠ []) :
    fs.walk purpose links slash dir (names ++ rest) =
      fs.walk purpose (links - via.length) slash p rest := by
  induction h generalizing links with
  | nil => rfl
  | here _ ih => exact walk_here.trans (ih hlen)
  | up _ ih => exact walk_up.trans (ih hlen)
  | @down dir _ n names _ hhere hup hsize hdir _ ih =>
    have hmore : names ++ rest ≠ [] := List.append_ne_nil_of_right_ne_nil _ hrest
    rw [← ih hlen]
    refine walk_congr ?_
    rw [List.cons_append, stride_name hhere hup (fun hc => hmore hc.1) hsize, hdir]
  | @link dir _ n target names via hhere hup hsize hlink _ ih =>
    have hmore : names ++ rest ≠ [] := List.append_ne_nil_of_right_ne_nil _ hrest
    have hs : fs.stride purpose slash dir (n :: names ++ rest) = .link dir target (names ++ rest) := by
      rw [List.cons_append, stride_name hhere hup (fun hc => hmore hc.1) hsize, hlink]
      exact if_neg fun hc => hmore hc.1
    rw [walk_of_link hs, ← List.append_assoc]
    cases links with
    | zero => exact absurd hlen (Nat.not_succ_le_zero _)
    | succ links =>
      simp only [decide_eq_false hmore, Bool.false_and, Bool.or_false]
      rw [ih (Nat.le_of_succ_le_succ hlen), List.length_cons, Nat.add_sub_add_right]

theorem walk_of_leads (h : fs.Leads dir names via p) (hlen : via.length ≤ links) :
    fs.walk .look links slash dir names = .ok (.found p .directory) := by
  induction h generalizing links slash with
  | nil => exact walk_nil
  | here _ ih => exact walk_here.trans (ih hlen)
  | up _ ih => exact walk_up.trans (ih hlen)
  | down hhere hup hsize hdir _ ih =>
    rw [← ih hlen]
    refine walk_congr ?_
    rw [stride_name hhere hup (by simp) hsize, hdir]
  | @link dir _ n target rest via hhere hup hsize hlink _ ih =>
    have hs : fs.stride .look slash dir (n :: rest) = .link dir target rest := by
      rw [stride_name hhere hup (by simp) hsize, hlink]
      exact if_neg (by simp)
    rw [walk_of_link hs]
    cases links with
    | zero => exact absurd hlen (Nat.not_succ_le_zero _)
    | succ links => exact ih (Nat.le_of_succ_le_succ hlen)

/-- A walk through directories. -/
theorem walk_directories (hn : ∀ n ∈ names, n ≠ Path.here ∧ n ≠ Path.up ∧ n.byteSize ≤ maxNameBytes)
    (hpurpose : purpose ≠ .openFile) (h : fs.lookup (names.reverse ++ dir) = some .directory) :
    fs.walk purpose links slash dir names = .ok (.found (names.reverse ++ dir) .directory) := by
  induction names generalizing dir with
  | nil => exact walk_nil
  | cons n names ih =>
    obtain ⟨hhere, hup, hsize⟩ := hn n List.mem_cons_self
    rw [List.reverse_cons, List.append_assoc, List.singleton_append] at h ⊢
    have hdir : fs.lookup (n :: dir) = some .directory := by
      by_cases hnil : names = []
      · simpa [hnil] using h
      · exact lookup_of_append h (by simpa using hnil)
    rw [← ih (fun m hm => hn m (List.mem_cons_of_mem _ hm)) h]
    refine walk_congr ?_
    rw [stride_name hhere hup (fun hc => hpurpose hc.2.2) hsize, hdir]

/-- The last of the names that a walk follows, and where it is looked for. -/
theorem leads_of_walk_ne_nil {r : Stop} (hn : names ≠ [])
    (h : fs.walk purpose links slash dir names = .ok r) :
    ∃ init n via p, names = init ++ [n] ∧ via.length ≤ links ∧ fs.Leads dir init via p ∧
      fs.walk purpose (links - via.length) slash p [n] = .ok r := by
  obtain ⟨init, n, rfl⟩ := (List.eq_nil_or_concat names).resolve_left hn
  rw [List.concat_eq_append] at h ⊢
  obtain ⟨via, p, hlen, hv, hw⟩ := leads_of_walk_append (List.cons_ne_nil n []) h
  exact ⟨init, n, via, p, rfl, hlen, hv, hw⟩

theorem walk_nameEntry_absent {d : Location} {m : Text}
    (h : fs.walk .nameEntry links slash dir [n] = .ok (.absent d m)) :
    n ≠ Path.here ∧ n ≠ Path.up ∧ n.byteSize ≤ maxNameBytes ∧ m = n ∧ d = dir ∧
      fs.lookup (n :: dir) = none := by
  by_cases hhere : n = Path.here
  · subst hhere
    rw [walk_here, walk_nil] at h
    cases h
  by_cases hup : n = Path.up
  · subst hup
    rw [walk_up, walk_nil] at h
    cases h
  obtain ⟨hsize, ⟨-, hw⟩ | ⟨-, -, -, -, hc, -⟩ | ⟨-, ⟨hl, -, hr⟩ | ⟨x, -, -, hr, -⟩⟩⟩ :=
    walk_cons_ok hhere hup h
  · rw [walk_nil] at hw
    cases hw
  · exact absurd ⟨rfl, .inl rfl⟩ hc
  · cases hr
    exact ⟨hhere, hup, hsize, rfl, rfl, hl⟩
  · cases hr

/-- A walk to look at a link ends at the link. -/
theorem walk_lookAtLink_link {t : Text} (hhere : n ≠ Path.here) (hup : n ≠ Path.up)
    (hsize : n.byteSize ≤ maxNameBytes) (hlink : fs.lookup (n :: dir) = some (.link t)) :
    fs.walk .lookAtLink links false dir [n] = .ok (.found (n :: dir) (.link t)) := by
  refine walk_of_stop ?_
  rw [stride_name hhere hup (by simp) hsize, hlink]
  simp

/-- A walk to a name that is none of a link looks at its directory only. -/
theorem walk_singleton_congr {fs' : FileSystem} (hhere : n ≠ Path.here) (hup : n ≠ Path.up)
    (hno : ∀ t, fs.lookup (n :: dir) ≠ some (.link t)) (hn : fs'.lookup (n :: dir) = fs.lookup (n :: dir))
    (hdir : fs'.lookup dir = fs.lookup dir) :
    fs'.walk purpose links slash dir [n] = fs.walk purpose links slash dir [n] := by
  obtain ⟨r, hr, hr'⟩ : ∃ r, fs.stride purpose slash dir [n] = .stop r ∧
      fs'.stride purpose slash dir [n] = .stop r := by
    by_cases hopen : ([] : List Text) = [] ∧ slash = true ∧ purpose = .openFile
    · refine ⟨.error .isDirectory, ?_, ?_⟩ <;> unfold stride <;>
        rw [if_neg hhere, if_neg hup, if_pos hopen]
    by_cases hsize : maxNameBytes < n.byteSize
    · refine ⟨.error .nameTooLong, ?_, ?_⟩ <;> unfold stride <;>
        rw [if_neg hhere, if_neg hup, if_neg hopen, if_pos hsize]
    rw [stride_name hhere hup hopen (Nat.not_lt.1 hsize),
      stride_name hhere hup hopen (Nat.not_lt.1 hsize), hn, hdir]
    rcases hl : fs.lookup (n :: dir) with _ | (_ | c | t)
    · exact ⟨_, rfl, rfl⟩
    · exact ⟨.ok (.found (n :: dir) .directory), rfl, rfl⟩
    · exact ⟨_, rfl, rfl⟩
    · exact absurd hl (hno t)
  rw [walk_of_stop hr, walk_of_stop hr']

end Walk

/-! ### Paths -/

section Find

variable {fs : FileSystem} {cwd p : Location} {purpose : Purpose} {path n : Text}

theorem find_ok {r : Stop} (h : fs.find cwd purpose path = .ok r) :
    path ≠ [] ∧ path.byteSize ≤ maxPathBytes ∧
      fs.walk purpose maxLinks (Path.endsInSlash path) (startOf cwd path) (pathNames path) = .ok r := by
  unfold find at h
  split at h
  · cases h
  · next hne =>
    split at h
    · cases h
    · next hsize => exact ⟨hne, Nat.not_lt.1 hsize, h⟩

theorem find_eq_walk (hne : path ≠ []) (hsize : path.byteSize ≤ maxPathBytes) :
    fs.find cwd purpose path =
      fs.walk purpose maxLinks (Path.endsInSlash path) (startOf cwd path) (pathNames path) := by
  rw [find, if_neg hne, if_neg (Nat.not_lt.2 hsize)]
  rfl

theorem leads_of_find (h : fs.find cwd purpose path = .ok (.found p .directory)) :
    ∃ via, via.length ≤ maxLinks ∧ fs.Leads (startOf cwd path) (pathNames path) via p :=
  leads_of_walk (find_ok h).2.2

theorem find_look_directory_iff :
    fs.find cwd .look path = .ok (.found p .directory) ↔
      path ≠ [] ∧ path.byteSize ≤ maxPathBytes ∧
        ∃ via, via.length ≤ maxLinks ∧ fs.Leads (startOf cwd path) (pathNames path) via p := by
  constructor
  · intro h
    exact ⟨(find_ok h).1, (find_ok h).2.1, leads_of_find h⟩
  · rintro ⟨hne, hsize, via, hlen, hv⟩
    rw [find_eq_walk hne hsize]
    exact walk_of_leads hv hlen

/-- Whatever is found beyond a path, the path leads to a directory. -/
theorem find_of_isPrefix {base : Text} {ns : List Text} {r : Stop}
    (h : fs.find cwd purpose path = .ok r) (hbase : base <+: path) (hne : base ≠ [])
    (hnames : pathNames path = pathNames base ++ ns) (hns : ns ≠ []) :
    ∃ D, fs.find cwd .look base = .ok (.found D .directory) := by
  obtain ⟨-, hsize, hw⟩ := find_ok h
  rw [hnames] at hw
  obtain ⟨via, D, hlen, hv, -⟩ := leads_of_walk_append hns hw
  rw [startOf, ← isAbsolute_of_isPrefix hbase hne] at hv
  exact ⟨D, find_look_directory_iff.2
    ⟨hne, (byteSize_le_of_isPrefix hbase).trans hsize, via, hlen, hv⟩⟩

/-- Something is found along names of entries only, and none of these holds a NUL. -/
theorem nul_not_mem_of_find {x : Node} (h : fs.find cwd .look path = .ok (.found p x)) : '\x00' ∉ path := by
  intro hnul
  obtain ⟨n, hn, hc⟩ := exists_pathName_of_mem hnul (by decide)
  have hhere : n ≠ Path.here := by
    rintro rfl
    exact absurd hc (by decide)
  have hup : n ≠ Path.up := by
    rintro rfl
    exact absurd hc (by decide)
  suffices hname : IsName n from hname.2.2.2.2 hc
  obtain ⟨init, m, via, d, hnames, -, hv, hlast⟩ := leads_of_walk_ne_nil (List.ne_nil_of_mem hn) (find_ok h).2.2
  rw [hnames] at hn
  rcases List.mem_append.1 hn with hn | hn
  · exact hv.isName n hn hhere hup
  obtain rfl := List.mem_singleton.1 hn
  obtain ⟨-, ⟨hl, -⟩ | ⟨t, -, hl, -⟩ | ⟨-, ⟨-, -, hr⟩ | ⟨y, hl, -⟩⟩⟩ := walk_cons_ok hhere hup hlast
  · exact isName_of_lookup hl n List.mem_cons_self
  · exact isName_of_lookup hl n List.mem_cons_self
  · cases hr
  · exact isName_of_lookup hl n List.mem_cons_self

theorem isDirectory_eq_true_iff :
    fs.isDirectory cwd path = true ↔ ∃ p, fs.find cwd .look path = .ok (.found p .directory) := by
  unfold isDirectory
  split
  · next p h => exact ⟨fun _ => ⟨p, h⟩, fun _ => rfl⟩
  · next h => exact ⟨fun hf => absurd hf (by simp), fun ⟨p, hp⟩ => absurd hp (h p)⟩

theorem exists_eq_true_iff :
    fs.exists cwd path = true ↔ ∃ p x, fs.find cwd .look path = .ok (.found p x) := by
  unfold «exists»
  split
  · next p x h => exact ⟨fun _ => ⟨p, x, h⟩, fun _ => rfl⟩
  · next h => exact ⟨fun hf => absurd hf (by simp), fun ⟨p, x, hp⟩ => absurd hp (h p x)⟩

/-- A name is missing only where the names before it lead. -/
theorem leads_of_absent {d : Location} (h : fs.find cwd .nameEntry path = .ok (.absent d n)) :
    ∃ init via, pathNames path = init ++ [n] ∧ fs.Leads (startOf cwd path) init via d ∧
      IsPlain n ∧ n.byteSize ≤ maxNameBytes ∧ fs.lookup (n :: d) = none := by
  have hw := (find_ok h).2.2
  have hne : pathNames path ≠ [] := by
    intro hnil
    rw [hnil, walk_nil] at hw
    cases hw
  obtain ⟨init, m, via, p, hnames, -, hv, hw⟩ := leads_of_walk_ne_nil hne hw
  obtain ⟨hhere, hup, hsize, rfl, rfl, hl⟩ := walk_nameEntry_absent hw
  have hm : n ∈ pathNames path := hnames ▸ List.mem_append_right _ List.mem_cons_self
  have hplain : IsPlain n := ⟨(mem_pathNames hm).1, hhere, hup, (mem_pathNames hm).2⟩
  exact ⟨init, via, hnames, hv, hplain, hsize, hl⟩

end Find

/-! ### Where more is there -/

section Extends

variable {fs fs' : FileSystem} {purpose : Purpose} {links : Nat} {slash : Bool} {cwd dir q : Location}
  {path : Text} {names : List Text} {x : Node}

/-- Where more is there, a stride that was not stopped by what is missing is the same. -/
theorem stride_extends (hext : fs.Extends fs') {r : Stride}
    (h : fs.stride purpose slash dir names = r)
    (hr : (∃ q x, r = .stop (.ok (.found q x))) ∨ ∃ d t rest, r = .link d t rest) :
    fs'.stride purpose slash dir names = r := by
  induction names generalizing dir with
  | nil => exact h
  | cons n rest ih =>
    by_cases hhere : n = Path.here
    · subst hhere
      rw [stride_here] at h ⊢
      exact ih h
    by_cases hup : n = Path.up
    · subst hup
      rw [stride_up] at h ⊢
      exact ih h
    by_cases hopen : rest = [] ∧ slash = true ∧ purpose = .openFile
    · rw [stride_slash hhere hup hopen] at h
      subst h
      simp at hr
    by_cases hsize : maxNameBytes < n.byteSize
    · rw [stride_long hhere hup hopen hsize] at h
      subst h
      simp at hr
    rw [stride_name hhere hup hopen (Nat.not_lt.1 hsize)] at h ⊢
    cases hl : fs.lookup (n :: dir) with
    | none =>
      rw [hl] at h
      subst h
      simp only [Stride.stop.injEq, reduceCtorEq, exists_false, or_false] at hr
      split at hr <;> simp at hr
    | some x =>
      rw [hext _ _ hl]
      rw [hl] at h
      cases x with
      | directory => exact ih h
      | file c => exact h
      | link t => exact h

/-- Where each stride comes to the same link, or to the same place with something like what was there, so does
a walk. -/
theorem walk_of_strides {R : Node → Node → Prop} {links : Nat} {slash : Bool} {dir : Location}
    {names : List Text}
    (hstride : ∀ (slash : Bool) (dir : Location) (names : List Text),
      (∀ d t rest, fs.stride purpose slash dir names = .link d t rest →
        fs'.stride purpose slash dir names = .link d t rest) ∧
      ∀ q x, fs.stride purpose slash dir names = .stop (.ok (.found q x)) →
        ∃ y, R x y ∧ fs'.stride purpose slash dir names = .stop (.ok (.found q y)))
    (h : fs.walk purpose links slash dir names = .ok (.found q x)) :
    ∃ y, R x y ∧ fs'.walk purpose links slash dir names = .ok (.found q y) := by
  obtain ⟨hlink, hfound⟩ := hstride slash dir names
  cases hs : fs.stride purpose slash dir names with
  | stop r =>
    rw [walk_of_stop hs] at h
    subst h
    obtain ⟨y, hxy, hs'⟩ := hfound q x hs
    exact ⟨y, hxy, walk_of_stop hs'⟩
  | link d t rest =>
    rw [walk_of_link hs] at h
    rw [walk_of_link (hlink d t rest hs)]
    cases links with
    | zero => cases h
    | succ links => exact walk_of_strides hstride h
termination_by links

/-- Where more is there, what was found is found again. -/
theorem walk_extends (hext : fs.Extends fs')
    (h : fs.walk purpose links slash dir names = .ok (.found q x)) :
    fs'.walk purpose links slash dir names = .ok (.found q x) := by
  obtain ⟨y, rfl, hy⟩ := walk_of_strides (R := Eq) (fun slash dir names =>
    ⟨fun d t rest hs => stride_extends hext hs (.inr ⟨d, t, rest, rfl⟩),
      fun q x hs => ⟨x, rfl, stride_extends hext hs (.inl ⟨q, x, rfl⟩)⟩⟩) h
  exact hy

theorem find_extends (hext : fs.Extends fs') (h : fs.find cwd purpose path = .ok (.found q x)) :
    fs'.find cwd purpose path = .ok (.found q x) := by
  obtain ⟨hne, hsize, hw⟩ := find_ok h
  rw [find_eq_walk hne hsize]
  exact walk_extends hext hw

/-- What is found at the last name of a path, once it is not that of a link, depends on what stands there if
all the names before it lead to the same directory. -/
theorem find_congr_of_found {head n : Text} {cwd' d : Location} (habs : Path.isAbsolute path = true)
    (hhead : Path.isAbsolute head = true) (hnames : pathNames path = pathNames head ++ [n])
    (hn : IsPlain n) (hext : fs'.Extends fs) (h : fs.find [] .look head = .ok (.found d .directory))
    (h' : fs'.find [] .look head = .ok (.found d .directory))
    (hno : ∀ t, fs.lookup (n :: d) ≠ some (.link t))
    (hlook : fs'.lookup (n :: d) = fs.lookup (n :: d)) :
    fs'.find cwd' purpose path = fs.find cwd purpose path := by
  obtain ⟨via, hlen, hv⟩ := leads_of_find h
  obtain ⟨via', hlen', hv'⟩ := leads_of_find h'
  rw [startOf_of_isAbsolute hhead] at hv hv'
  obtain ⟨rfl, -⟩ := hv.deterministic (hv'.of_extends hext)
  have hdir : fs'.lookup d = fs.lookup d := (hv'.lookup_eq rfl).trans (hv.lookup_eq rfl).symm
  simp only [find, habs, if_true]
  rw [hnames, walk_append hv hlen (List.cons_ne_nil _ _),
    walk_append hv' hlen' (List.cons_ne_nil _ _),
    walk_singleton_congr hn.ne_here hn.ne_up hno hlook hdir]

end Extends

end Rehome.FileSystem
