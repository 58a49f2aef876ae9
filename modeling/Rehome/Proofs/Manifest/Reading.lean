import Rehome.Proofs.Build.Made
import Rehome.Proofs.FileSystem.Written

/-! Manifests read back. A key stands in its line as it is, twice and unescaped, so it may imitate whatever surrounds
it. But the frame around the two has a fixed length, and with it the key has. -/

namespace Rehome

namespace Manifest

variable {e : Entry} {es : List Entry} {l t : Text} {ls : List Text}

def header : Text := "export default new Map( [".toList

def footer : Text := "] );".toList

/-- A line with its key, which is framed by 29 characters. -/
def framed (key : Text) : Text :=
  "  [ '".toList ++ (key ++ ("', import( './".toList ++ (key ++ "?raw' ) ],".toList)))

/-- The entry of a line. What its length leaves beside the frame is the key, two times. -/
def Entry.ofLine? (l : Text) : Option Entry :=
  let key := (l.drop 5).take ((l.length - 29) / 2)
  if '/' ∈ key ∧ l = framed key then some { key, loader := "import( './".toList ++ (key ++ "?raw' )".toList) }
  else none

/-- The entries of the lines behind the first. -/
def readLines : List Text → Option (List Entry)
  | [] => none
  | l :: ls =>
    if l :: ls = [footer, []] then some []
    else (Entry.ofLine? l).bind fun e => (readLines ls).map (e :: ·)

/-- The entries that a manifest was rendered from. -/
def read (t : Text) : Option (List Entry) :=
  match t.splitOn '\n' with
  | [] => none
  | l :: ls => if l = header then readLines ls else none

/-- The entry of a file at some place below some home, neither of which holds a line feed. -/
def Entry.Inline (e : Entry) : Prop := ∃ home rel, '\n' ∉ home ∧ '\n' ∉ rel ∧ e = entry home rel

/-! ### Lines -/

theorem loader_entry (home rel : Text) :
    (entry home rel).loader = "import( './".toList ++ (home ++ '/' :: rel ++ "?raw' )".toList) := by
  have hassoc (a b : Text) : a ++ home ++ '/' :: rel ++ b = a ++ (home ++ '/' :: rel ++ b) := by simp
  exact hassoc _ _

theorem line_entry (home rel : Text) : (entry home rel).line = framed (home ++ '/' :: rel) := by
  have hmiddle : "', import( './".toList = "', ".toList ++ "import( './".toList := by decide
  have hright : "?raw' ) ],".toList = "?raw' )".toList ++ " ],".toList := by decide
  have hassoc (a b c d e key : Text) : a ++ key ++ b ++ (c ++ (key ++ d)) ++ e =
      a ++ (key ++ (b ++ c ++ (key ++ (d ++ e)))) := by simp
  unfold Entry.line framed
  rw [loader_entry, hmiddle, hright]
  exact hassoc _ _ _ _ _ _

theorem length_framed (key : Text) : (framed key).length = 2 * key.length + 29 := by
  have hleft : "  [ '".toList.length = 5 := rfl
  have hmiddle : "', import( './".toList.length = 14 := rfl
  have hright : "?raw' ) ],".toList.length = 10 := rfl
  unfold framed
  rw [List.length_append, List.length_append, List.length_append, List.length_append, hleft, hmiddle, hright]
  omega

theorem key_of_framed (key : Text) : ((framed key).drop 5).take (((framed key).length - 29) / 2) = key := by
  have hlength : ((framed key).length - 29) / 2 = key.length := by
    rw [length_framed]
    omega
  rw [hlength]
  exact List.take_left

theorem newline_mem_framed {key : Text} : '\n' ∈ framed key ↔ '\n' ∈ key := by
  have hleft : '\n' ∉ "  [ '".toList := by decide
  have hmiddle : '\n' ∉ "', import( './".toList := by decide
  have hright : '\n' ∉ "?raw' ) ],".toList := by decide
  unfold framed
  simp only [List.mem_append, hleft, hmiddle, hright, false_or, or_false, or_self]

theorem newline_mem_key {home rel : Text} : '\n' ∈ home ++ '/' :: rel ↔ '\n' ∈ home ∨ '\n' ∈ rel := by
  simp

namespace Entry.Inline

theorem newline_not_mem (h : e.Inline) : '\n' ∉ e.line := by
  obtain ⟨home, rel, hhome, hrel, rfl⟩ := h
  rw [line_entry, newline_mem_framed, newline_mem_key, not_or]
  exact ⟨hhome, hrel⟩

theorem ofLine? (h : e.Inline) : ofLine? e.line = some e := by
  obtain ⟨home, rel, -, -, rfl⟩ := h
  rw [line_entry, Entry.ofLine?, key_of_framed, ← loader_entry]
  exact if_pos ⟨List.mem_append_right home List.mem_cons_self, rfl⟩

end Entry.Inline

theorem inline_of_ofLine? (hl : '\n' ∉ l) (h : Entry.ofLine? l = some e) : e.Inline ∧ l = e.line := by
  unfold Entry.ofLine? at h
  dsimp only at h
  split at h
  · next hkey =>
    obtain ⟨hslash, hframe⟩ := hkey
    generalize (l.drop 5).take ((l.length - 29) / 2) = key at *
    obtain ⟨home, rel, rfl⟩ := List.append_of_mem hslash
    rw [← loader_entry] at h
    cases h
    rw [hframe, newline_mem_framed, newline_mem_key, not_or] at hl
    exact ⟨⟨home, rel, hl.1, hl.2, rfl⟩, hframe.trans (line_entry home rel).symm⟩
  · cases h

/-! ### Manifests -/

theorem line_ne_footer (e : Entry) : e.line ≠ footer := by
  intro h
  have hhead := congrArg List.head? h
  cases hhead

theorem readLines_lines (h : ∀ e ∈ es, e.Inline) : readLines (es.map Entry.line ++ [footer, []]) = some es := by
  induction es with
  | nil => exact if_pos rfl
  | cons e es ih =>
    obtain ⟨he, hes⟩ := List.forall_mem_cons.1 h
    have hline : e.line :: (es.map Entry.line ++ [footer, []]) ≠ [footer, []] := fun hl =>
      line_ne_footer e (List.cons.inj hl).1
    rw [List.map_cons, List.cons_append, readLines, if_neg hline, he.ofLine?, ih hes]
    rfl

theorem lines_of_readLines (hls : ∀ l ∈ ls, '\n' ∉ l) (h : readLines ls = some es) :
    (∀ e ∈ es, e.Inline) ∧ ls = es.map Entry.line ++ [footer, []] := by
  induction ls generalizing es with
  | nil => cases h
  | cons l ls ih =>
    obtain ⟨hl, hrest⟩ := List.forall_mem_cons.1 hls
    rw [readLines] at h
    split at h
    · next hlast =>
      cases h
      exact ⟨by simp, hlast⟩
    · obtain ⟨e, he, h⟩ := Option.bind_eq_some_iff.1 h
      obtain ⟨es, hes, rfl⟩ := Option.map_eq_some_iff.1 h
      obtain ⟨hinline, rfl⟩ := inline_of_ofLine? hl he
      obtain ⟨hall, rfl⟩ := ih hrest hes
      exact ⟨List.forall_mem_cons.2 ⟨hinline, hall⟩, rfl⟩

theorem splitOn_render (h : ∀ e ∈ es, e.Inline) :
    (render es).splitOn '\n' = header :: es.map Entry.line ++ [footer, []] := by
  refine List.splitOn_intercalate '\n' (fun l hl => ?_) (by simp)
  simp only [List.mem_append, List.mem_cons, List.mem_map, List.not_mem_nil, or_false] at hl
  rcases hl with (rfl | ⟨e, he, rfl⟩) | rfl | rfl
  · decide
  · exact (h e he).newline_not_mem
  · decide
  · decide

/-- Exactly the manifests of entries without line feeds are read, and each as the entries that it was rendered
from. -/
theorem read_eq_some_iff : read t = some es ↔ t = render es ∧ ∀ e ∈ es, e.Inline := by
  constructor
  · intro h
    have hlines : ∀ l ∈ t.splitOn '\n', '\n' ∉ l := fun l => Text.not_mem_of_mem_splitOn
    have htext : ['\n'].intercalate (t.splitOn '\n') = t := List.intercalate_splitOn _
    unfold read at h
    split at h
    · cases h
    · next l ls hsplit =>
      split at h
      · next hhead =>
        subst hhead
        rw [hsplit] at hlines htext
        obtain ⟨hall, rfl⟩ := lines_of_readLines (List.forall_mem_cons.1 hlines).2 h
        exact ⟨htext.symm, hall⟩
      · cases h
  · rintro ⟨rfl, hall⟩
    rw [read, splitOn_render hall]
    exact (if_pos rfl).trans (readLines_lines hall)

theorem render_injective {es es' : List Entry} (h : ∀ e ∈ es, e.Inline) (h' : ∀ e ∈ es', e.Inline)
    (heq : render es = render es') : es = es' := by
  have hread := read_eq_some_iff.2 ⟨rfl, h⟩
  rw [heq, read_eq_some_iff.2 ⟨rfl, h'⟩] at hread
  exact (Option.some.inj hread).symm

end Manifest

namespace Build

variable {s s' : Host} {cwd : Text} {c : Settings} {b : Build}

theorem inline_of_run (hrun : Concurrent.run cwd c s (.ok b) s') (hkeys : ∀ e ∈ b.entries, '\n' ∉ e.key) :
    ∀ e ∈ b.entries, e.Inline := by
  obtain ⟨-, -, made, -, -, -, hentries, -⟩ := Concurrent.run_makes hrun
  intro e he
  have hkey := hkeys e he
  rw [hentries] at he
  obtain ⟨m, -, rfl⟩ := List.mem_map.1 he
  obtain ⟨hhome, hrel⟩ := not_or.1 fun h => hkey (Manifest.newline_mem_key.2 h)
  exact ⟨_, _, hhome, hrel, rfl⟩

/-- A build leaves the manifest of its entries. -/
theorem read_manifestPath (hlinks : s.files.ProperLinks) (hrun : Concurrent.run cwd c s (.ok b) s') :
    s'.files.read s'.cwd b.manifestPath = .ok (.text (Manifest.render b.entries)) := by
  obtain ⟨-, t, hclean, hfill⟩ := Concurrent.run_stages hrun
  obtain ⟨es, u, hbuild, hpublish⟩ := Course.bind_ok hfill
  have hprepare : ∀ p ∈ c.packages, ∀ u : Host, u.files.ProperLinks → ∀ rel ∈ declarations u p.sourceDir,
      (prepare p (Path.absolute cwd c.destination) rel).Keeps (fun u => u.files.ProperLinks) fun _ => True :=
    fun _ _ _ _ _ _ => .of_answer (fun call _ hu => Host.answer_properLinks hu call) _
  have hu := (Concurrent.buildPackages_keeps (fun _ _ hu => hu) hprepare t _ u hbuild
    (Host.perform_properLinks hlinks hclean)).1
  obtain ⟨w, rfl, hwrite, hfiles, hcwd⟩ := publish_ok hpublish
  rw [hfiles, hcwd]
  exact (read_of_writeText hu hwrite).2

/-- Whatever a manifest was rendered from is read back from it, as long as there is no line feed in it. So the
manifests that two builds leave are different where their entries are, whatever the timing of their workers. -/
theorem manifest_decodes :
    (∀ fs : List (Text × Text), (∀ f ∈ fs, '\n' ∉ f.1 ∧ '\n' ∉ f.2) →
      Manifest.read (Manifest.render (fs.map fun f => Manifest.entry f.1 f.2)) =
        some (fs.map fun f => Manifest.entry f.1 f.2)) ∧
    ∀ (s s' t t' : Host) (cwd cwd' : Text) (c c' : Settings) (b b' : Build),
      s.files.ProperLinks → Concurrent.run cwd c s (.ok b) s' → (∀ e ∈ b.entries, '\n' ∉ e.key) →
      t.files.ProperLinks → Concurrent.run cwd' c' t (.ok b') t' → (∀ e ∈ b'.entries, '\n' ∉ e.key) →
      b.entries ≠ b'.entries →
      ∃ m m', s'.files.read s'.cwd b.manifestPath = .ok (.text m) ∧
        t'.files.read t'.cwd b'.manifestPath = .ok (.text m') ∧ m ≠ m' := by
  refine ⟨fun fs hfs => Manifest.read_eq_some_iff.2 ⟨rfl, fun e he => ?_⟩, ?_⟩
  · obtain ⟨f, hf, rfl⟩ := List.mem_map.1 he
    exact ⟨f.1, f.2, (hfs f hf).1, (hfs f hf).2, rfl⟩
  · intro s s' t t' cwd cwd' c c' b b' hs hrun hkeys ht hrun' hkeys' hne
    refine ⟨_, _, read_manifestPath hs hrun, read_manifestPath ht hrun', fun heq => hne ?_⟩
    exact Manifest.render_injective (inline_of_run hrun hkeys) (inline_of_run hrun' hkeys') heq

/-- The second key looks like two entries, and the builds differ in the home of their first package. -/
theorem manifest_decodes_imitating :
    Manifest.read (Manifest.render [Manifest.entry "a".toList "x.d.ts".toList,
        Manifest.entry "b', import( './b?raw' ) ],  [ 'c".toList "y.d.ts".toList]) =
      some [Manifest.entry "a".toList "x.d.ts".toList,
        Manifest.entry "b', import( './b?raw' ) ],  [ 'c".toList "y.d.ts".toList] ∧
    ∃ b b' m m',
      (workshop.perform (run workshop.cwd.path (workshopBuild "a".toList))).1 = .ok b ∧
      (workshop.perform (run workshop.cwd.path (workshopBuild "b".toList))).1 = .ok b' ∧
      (workshop.perform (run workshop.cwd.path (workshopBuild "a".toList))).2.files.read workshop.cwd
        b.manifestPath = .ok (.text m) ∧
      (workshop.perform (run workshop.cwd.path (workshopBuild "b".toList))).2.files.read workshop.cwd
        b'.manifestPath = .ok (.text m') ∧ m ≠ m' := by
  let built (home : Text) : Build :=
    { destination := "/w/out".toList
      manifestPath := "/w/out/dts-list.ts".toList
      entries := [Manifest.entry home "d/x.d.ts".toList, Manifest.entry "c/e".toList "y.d.ts".toList] }
  have hrun : ∀ home ∈ ["a".toList, "b".toList],
      (workshop.perform (run workshop.cwd.path (workshopBuild home))).1 = .ok (built home) ∧
        (workshop.perform (run workshop.cwd.path (workshopBuild home))).2.cwd = workshop.cwd := by
    decide +kernel
  obtain ⟨ha, hcwd⟩ := hrun _ (by simp : "a".toList ∈ _)
  obtain ⟨hb, hcwd'⟩ := hrun _ (by simp : "b".toList ∈ _)
  refine ⟨manifest_decodes.1 [("a".toList, "x.d.ts".toList),
    ("b', import( './b?raw' ) ],  [ 'c".toList, "y.d.ts".toList)] (by decide), built "a".toList,
    built "b".toList, ?_⟩
  obtain ⟨m, m', hm, hm', hne⟩ := manifest_decodes.2 workshop _ workshop _ workshop.cwd.path workshop.cwd.path
    (workshopBuild "a".toList) (workshopBuild "b".toList) (built "a".toList) (built "b".toList)
    workshop_properLinks (Concurrent.run_allows _ _ _ _ _ (Prod.ext ha rfl)) (by decide)
    workshop_properLinks (Concurrent.run_allows _ _ _ _ _ (Prod.ext hb rfl)) (by decide) (by decide)
  rw [hcwd] at hm
  rw [hcwd'] at hm'
  exact ⟨m, m', ha, hb, hm, hm', hne⟩

end Build

end Rehome
