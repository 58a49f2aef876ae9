import Rehome.Proofs.FileSystem.Walk
import Rehome.Proofs.Program.Perform
import Rehome.Proofs.Settings.Described
import Rehome.Proofs.Toml.Documents
import Rehome.Settings.Load

/-! Settings loaded from a file, whatever bytes it holds. -/

namespace Rehome

/-- What a file of these bytes holds. -/
def Content.ofBytes (b : ByteArray) : Content :=
  match String.fromUTF8? b with
  | some s => .text s.toList
  | none => .bytes b.data.toList

theorem Content.ofBytes_of_utf8 (t : Text) : ofBytes t.utf8Encode = .text t := by
  have hvalid : t.utf8Encode.IsValidUTF8 := .intro t rfl
  have hstring : String.fromUTF8 t.utf8Encode hvalid = String.ofList t :=
    String.toByteArray_inj.1 String.toByteArray_ofList.symm
  rw [ofBytes, String.fromUTF8?, dif_pos hvalid, hstring]
  exact congrArg Content.text String.toList_ofList

theorem Content.ofBytes_of_not_utf8 {b : ByteArray} (h : ∀ t : Text, b ≠ t.utf8Encode) :
    ofBytes b = .bytes b.data.toList := by
  have hvalid : ¬ b.IsValidUTF8 := fun ⟨t, ht⟩ => h t ht
  rw [ofBytes, String.fromUTF8?, dif_neg hvalid]

theorem Content.utf8Encode_inj {t u : Text} (h : t.utf8Encode = u.utf8Encode) : t = u := by
  have ht := ofBytes_of_utf8 t
  rw [h, ofBytes_of_utf8] at ht
  exact (Content.text.inj ht).symm

namespace Host

variable {s : Host} {path t : Text} {p : Location}

theorem perform_read_of_found {c : Content} (h : s.files.find s.cwd .look path = .ok (.found p (.file c))) :
    s.perform (Action.read path) = ((match c with | .text t => .ok t | .bytes _ => .error .notText), s) := by
  have hread : s.files.read s.cwd path = .ok c := by
    rw [FileSystem.read, h]
  have hnul := FileSystem.nul_not_mem_of_find h
  cases c with
  | text t => simp only [perform_read, answer, onPath, if_neg hnul, hread, Except.map]
  | bytes b => simp only [perform_read, answer, onPath, if_neg hnul, hread, Except.map]

end Host

namespace Settings

variable {s : Host} {env : Environment} {name : Option Text} {path t : Text} {b : ByteArray} {c : Settings}
  {f : Fault}

/-- A text spells settings if it is a document of a table that describes them. -/
theorem ofText_eq_ok : ofText path t = .ok c ↔ ∃ fs, Toml.parse t = .ok (.record fs) ∧ c.Described fs := by
  unfold ofText
  split
  · next h => simp [h]
  · next h => simp [h]
  · next v hv =>
    constructor
    · intro h
      split at h
      · cases h
      · next hc =>
        cases h
        obtain ⟨fs, rfl, hfs⟩ := ofValue_eq_ok.1 hc
        exact ⟨fs, hv, hfs⟩
    · rintro ⟨fs, hfs, hc⟩
      rw [hv] at hfs
      rw [ofValue_eq_ok.2 ⟨fs, Except.ok.inj hfs, hc⟩]

theorem kind_of_ofText (h : ofText path t = .error f) :
    f.kind = .settings ∨ ∃ n, f = .hugeNumeral n ∧ Toml.Overlong t n := by
  unfold ofText at h
  split at h
  · cases h
    exact .inl rfl
  · next n hn =>
    cases h
    cases Toml.refuses_parse t _ hn with
    | numeral hlong => exact .inr ⟨n, rfl, hlong⟩
  · split at h
    · cases h
      exact .inl rfl
    · cases h

/-- The paths of settings, as they are seen from the file that these were read from. -/
def placed (env : Environment) (path : Text) (c : Settings) : Settings :=
  placeDestination env (Path.parent path) (placeSources (Path.parent path) c)

theorem perform_load_of_read (h : s.perform (Action.read (fileOf env name)) = (.ok t, s)) :
    s.perform (load env name) = ((ofText (fileOf env name) t).map (placed env (fileOf env name)), s) := by
  unfold load
  dsimp only
  rw [Host.perform_bind, Host.perform_tryCatch, h]
  dsimp only
  rw [Host.perform_bind]
  rcases hc : ofText (fileOf env name) t with f | c
  · rfl
  · rfl

theorem perform_load_of_unread (h : s.perform (Action.read (fileOf env name)) = (.error f, s)) :
    ∃ f', s.perform (load env name) = (.error f', s) := by
  unfold load
  dsimp only
  rw [Host.perform_bind, Host.perform_tryCatch, h]
  cases f with
  | system e path => cases e <;> exact ⟨_, rfl⟩
  | _ => exact ⟨_, rfl⟩

/-- Loading changes nothing. It gives the settings that the text of the file spells, with their paths placed. -/
theorem exists_perform_load (s : Host) (env : Environment) (name : Option Text) :
    ∃ r, s.perform (load env name) = (r, s) ∧
      ∀ c, r = .ok c ↔ ∃ t c₀, s.perform (Action.read (fileOf env name)) = (.ok t, s) ∧
        ofText (fileOf env name) t = .ok c₀ ∧ placed env (fileOf env name) c₀ = c := by
  have hhost : (s.perform (Action.read (fileOf env name))).2 = s := s.answer_read_host _
  rcases hread : s.perform (Action.read (fileOf env name)) with ⟨f | t, s'⟩
  all_goals
    rw [hread] at hhost
    obtain rfl : s' = s := hhost
  · obtain ⟨f', hload⟩ := perform_load_of_unread hread
    refine ⟨_, hload, fun c => ⟨nofun, ?_⟩⟩
    rintro ⟨t, c₀, ⟨⟩, -⟩
  · refine ⟨_, perform_load_of_read hread, fun c => ?_⟩
    rw [Checked.map_eq_ok]
    constructor
    · rintro ⟨c₀, hc₀, hc⟩
      exact ⟨t, c₀, rfl, hc₀, hc⟩
    · rintro ⟨t', c₀, ⟨⟩, hc₀, hc⟩
      exact ⟨c₀, hc₀, hc⟩

theorem perform_load_of_text {p : Location}
    (h : s.files.find s.cwd .look (fileOf env name) = .ok (.found p (.file (.text t)))) :
    s.perform (load env name) = ((ofText (fileOf env name) t).map (placed env (fileOf env name)), s) :=
  perform_load_of_read (Host.perform_read_of_found h)

theorem perform_load_of_bytes {p : Location} {l : List UInt8}
    (h : s.files.find s.cwd .look (fileOf env name) = .ok (.found p (.file (.bytes l)))) :
    s.perform (load env name) = (.error .notText, s) := by
  unfold load
  dsimp only
  rw [Host.perform_bind, Host.perform_tryCatch, Host.perform_read_of_found h]
  rfl

/-- Whatever the bytes of the file are, loading it changes nothing. It gives the settings that the file describes if it
is a text, a document and a table that describes some, and otherwise it fails. That the settings are to blame is said
of all texts but those with too long a numeral. -/
theorem load_settles {p : Location}
    (h : s.files.find s.cwd .look (fileOf env name) = .ok (.found p (.file (.ofBytes b)))) :
    ∃ r, s.perform (load env name) = (r, s) ∧
      (∀ c, r = .ok c ↔ ∃ (t : Text) (fs : List (Text × Value)) (c₀ : Settings), b = t.utf8Encode ∧
        Toml.parse t = .ok (.record fs) ∧ c₀.Described fs ∧ c = placed env (fileOf env name) c₀) ∧
      ∀ f, r = .error f →
        (∀ t : Text, b ≠ t.utf8Encode) ∧ f = .notText ∨
          ∃ t : Text, b = t.utf8Encode ∧
            (f.kind = .settings ∨ ∃ n, f = .hugeNumeral n ∧ Toml.Overlong t n) := by
  by_cases hutf8 : ∃ t : Text, b = t.utf8Encode
  · obtain ⟨t, rfl⟩ := hutf8
    rw [Content.ofBytes_of_utf8] at h
    refine ⟨_, perform_load_of_text h, fun c => ?_, fun f hf => .inr ⟨t, rfl, ?_⟩⟩
    · rw [Checked.map_eq_ok]
      constructor
      · rintro ⟨c₀, hc₀, rfl⟩
        obtain ⟨fs, hfs, hdescribed⟩ := ofText_eq_ok.1 hc₀
        exact ⟨t, fs, c₀, rfl, hfs, hdescribed, rfl⟩
      · rintro ⟨u, fs, c₀, hu, hfs, hdescribed, rfl⟩
        obtain rfl := Content.utf8Encode_inj hu
        exact ⟨c₀, ofText_eq_ok.2 ⟨fs, hfs, hdescribed⟩, rfl⟩
    · rcases ht : ofText (fileOf env name) t with f' | c
      · rw [ht] at hf
        cases hf
        exact kind_of_ofText ht
      · rw [ht] at hf
        cases hf
  · have hno : ∀ t : Text, b ≠ t.utf8Encode := fun t ht => hutf8 ⟨t, ht⟩
    rw [Content.ofBytes_of_not_utf8 hno] at h
    refine ⟨_, perform_load_of_bytes h, fun c => ⟨nofun, ?_⟩, fun f hf => .inl ⟨hno, ?_⟩⟩
    · rintro ⟨t, fs, c₀, ht, -⟩
      exact absurd ht (hno t)
    · exact (Except.error.inj hf).symm

/-- A working directory with a settings file of these contents. -/
def desk (content : Content) : Host where
  files := (FileSystem.empty.put [] "w".toList .directory).put ["w".toList] defaultFile (.file content)
  cwd := ["w".toList]
  log := []

def deskText : Text :=
  "workers = '2'\r\n[[packages]]\nnamespace = \"three\"\nsrc_dir = '../lib' # sources\n".toList

def deskSettings : Settings where
  destination := "/w/types".toList
  workers := 2
  packages := [{ home := "three".toList, sourceDir := "/lib".toList }]

theorem load_settles_desk :
    (desk (.ofBytes deskText.utf8Encode)).perform (load { cwd := "/w".toList } none) =
        (.ok deskSettings, desk (.ofBytes deskText.utf8Encode)) ∧
      ∃ (t : Text) (fs : List (Text × Value)) (c₀ : Settings), deskText.utf8Encode = t.utf8Encode ∧
        Toml.parse t = .ok (.record fs) ∧ c₀.Described fs ∧
        deskSettings = placed { cwd := "/w".toList } (fileOf { cwd := "/w".toList } none) c₀ := by
  have hfound : (desk (.ofBytes deskText.utf8Encode)).files.find ["w".toList] .look
      (fileOf { cwd := "/w".toList } none) =
        .ok (.found [defaultFile, "w".toList] (.file (.ofBytes deskText.utf8Encode))) := by
    rw [Content.ofBytes_of_utf8]
    decide +kernel
  obtain ⟨r, hrun, hok, -⟩ := load_settles hfound
  have hr : r = .ok deskSettings := by
    have hfst : ((desk (.ofBytes deskText.utf8Encode)).perform (load { cwd := "/w".toList } none)).1 =
        .ok deskSettings := by
      rw [Content.ofBytes_of_utf8]
      decide +kernel
    rw [hrun] at hfst
    exact hfst
  subst hr
  exact ⟨hrun, (hok deskSettings).1 rfl⟩

/-- Bytes that are no UTF-8 text end the run with an error of no kind of its own. -/
theorem load_stumbles :
    (∀ t : Text, ByteArray.mk #[0xff] ≠ t.utf8Encode) ∧
      ((desk (.ofBytes ⟨#[0xff]⟩)).perform (load { cwd := "/w".toList } none)).1 = .error .notText ∧
      Fault.notText.kind ≠ .settings := by
  have hinvalid : ¬ (ByteArray.mk #[0xff]).IsValidUTF8 := by decide +kernel
  have hno : ∀ t : Text, ByteArray.mk #[0xff] ≠ t.utf8Encode := fun t ht => hinvalid (.intro t ht)
  refine ⟨hno, ?_, by decide⟩
  rw [Content.ofBytes_of_not_utf8 hno]
  decide +kernel

end Settings

end Rehome
