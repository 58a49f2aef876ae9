import Rehome.Package.Raw
import Rehome.Proofs.Settings.Described
import Rehome.Proofs.Text.Cut

/-! Arguments that name packages. An argument is taken apart at its first equals sign and at the last colon behind
it, which is where it was put together. Whatever it says comes back, but for the name of a root file that is no text. -/

namespace Rehome

namespace CodePoint

abbrev equals : CodePoint := scalar '='

abbrev colon : CodePoint := scalar ':'

theorem scalar_injective : Function.Injective scalar := fun _ _ h => scalar.inj h

end CodePoint

namespace RawText

variable {t : RawText} {u : Text}

theorem text?_cons (x : CodePoint) (t : RawText) :
    text? (x :: t) = x.char?.bind fun c => (text? t).map (c :: ·) := by
  simp only [text?, List.mapM_cons, Option.map_eq_bind]
  rfl

theorem text?_raw (u : Text) : text? (Text.raw u) = some u := by
  induction u with
  | nil => rfl
  | cons c u ih =>
    have h : text? (Text.raw (c :: u)) = (text? (Text.raw u)).map (c :: ·) := text?_cons (.scalar c) (Text.raw u)
    rw [h, ih]
    rfl

theorem text?_eq_some_iff : text? t = some u ↔ t = Text.raw u := by
  refine ⟨fun h => ?_, fun h => h ▸ text?_raw u⟩
  induction t generalizing u with
  | nil =>
    cases h
    rfl
  | cons x t ih =>
    rw [text?_cons] at h
    obtain ⟨c, hx, ht⟩ := Option.bind_eq_some_iff.1 h
    obtain ⟨v, hv, rfl⟩ := Option.map_eq_some_iff.1 ht
    cases x with
    | surrogate i => cases hx
    | scalar d =>
      cases hx
      rw [ih hv]
      rfl

theorem asNonemptyText_raw (h : u ≠ []) : asNonemptyText (Text.raw u) = .ok u := by
  obtain ⟨c, v, rfl⟩ := List.exists_cons_of_ne_nil h
  unfold asNonemptyText asText
  rw [text?_raw]
  rfl

theorem asNonemptyText_of_text? (h : text? t = none) : asNonemptyText t = .fail .notUnicode := by
  unfold asNonemptyText asText
  rw [h]
  rfl

end RawText

namespace Package

open CodePoint (equals colon)

variable {arg home place dir root : RawText} {q : Parts CodePoint}

/-- There is no equals sign in the argument, or nothing before the first one, or nothing behind it. -/
def Unsplit (arg : RawText) : Prop :=
  equals ∉ arg ∨ arg.head? = some equals ∨ ∃ home, equals ∉ home ∧ arg = home ++ [equals]

/-- What stands before the first equals sign and what stands behind it, with something on either side. -/
structure Split (arg home place : RawText) : Prop where
  text : arg = home ++ equals :: place
  equals : equals ∉ home
  home_ne_nil : home ≠ []
  place_ne_nil : place ≠ []

/-- The argument spells a home, a directory and a root file. -/
structure Spelled (arg home dir root : RawText) : Prop where
  split : Split arg home (dir ++ colon :: root)
  dir_ne_nil : dir ≠ []
  colon : colon ∉ root
  isFile : Declaration.suffix.map CodePoint.scalar <:+ root

/-- The argument spells a home and a directory, and there is no root file that it spells. -/
structure SpelledShort (arg home dir : RawText) : Prop where
  split : Split arg home dir
  last : arg.getLast? ≠ some colon
  only : ∀ home dir root, ¬ Spelled arg home dir root

/-! ### Behind the equals sign -/

namespace Split

theorem cut (h : Split arg home place) : arg.cutFirst? CodePoint.equals = some (home, place) :=
  List.cutFirst?_eq_some_iff.2 ⟨h.equals, h.text⟩

theorem of_cut (h : arg.cutFirst? CodePoint.equals = some (home, place)) (hhome : home ≠ []) (hplace : place ≠ []) :
    Split arg home place := by
  obtain ⟨hequals, htext⟩ := List.cutFirst?_eq_some_iff.1 h
  exact ⟨htext, hequals, hhome, hplace⟩

theorem getLast? (h : Split arg home place) : arg.getLast? = place.getLast? := by
  rw [h.text, List.getLast?_append_of_ne_nil _ (List.cons_ne_nil _ _), List.getLast?_cons_of_ne_nil h.place_ne_nil]

theorem not_unsplit (h : Split arg home place) : ¬ Unsplit arg := by
  rintro (hno | hhead | ⟨home', hequals, htext⟩)
  · exact hno (h.text ▸ List.mem_append_right home List.mem_cons_self)
  · obtain ⟨c, rest, rfl⟩ := List.exists_cons_of_ne_nil h.home_ne_nil
    rw [h.text] at hhead
    exact h.equals (Option.some.inj hhead ▸ List.mem_cons_self)
  · have hcut := h.cut
    rw [htext, List.cutFirst?_append hequals] at hcut
    cases hcut
    exact h.place_ne_nil rfl

end Split

theorem exists_split (h : ¬ Unsplit arg) : ∃ home place, Split arg home place := by
  rcases hcut : List.cutFirst? equals arg with _ | ⟨home, place⟩
  · exact absurd (.inl (List.cutFirst?_eq_none_iff.1 hcut)) h
  obtain ⟨hequals, rfl⟩ := List.cutFirst?_eq_some_iff.1 hcut
  refine ⟨home, place, .of_cut hcut ?_ ?_⟩
  · rintro rfl
    exact h (.inr (.inl rfl))
  · rintro rfl
    exact h (.inr (.inr ⟨home, hequals, rfl⟩))

theorem parts_of_unsplit (h : Unsplit arg) : parts .scalar arg = .error .malformed := by
  unfold parts
  split
  · rfl
  · next home place hcut =>
    rw [if_pos]
    by_contra hboth
    rw [not_or] at hboth
    exact (Split.of_cut hcut hboth.1 hboth.2).not_unsplit h

/-! ### Before and behind the last colon -/

theorem Split.parts_of_colon (h : Split arg home place) (hlast : arg.getLast? = some colon) :
    parts .scalar arg = .error .emptyRootFile := by
  have hparts : ¬ (home = [] ∨ place = []) := not_or.2 ⟨h.home_ne_nil, h.place_ne_nil⟩
  rw [h.getLast?] at hlast
  unfold parts
  rw [h.cut]
  exact (if_neg hparts).trans (if_pos hlast)

theorem Split.parts (h : Split arg home place) (hlast : arg.getLast? ≠ some colon) :
    parts .scalar arg =
      match place.cutLast? colon with
      | none => .ok { home, sourceDir := place }
      | some (dir, root) =>
        if dir ≠ [] ∧ (Declaration.suffix.map CodePoint.scalar).isSuffixOf root then
          .ok { home, sourceDir := dir, rootFile? := some root }
        else .ok { home, sourceDir := place } := by
  have hparts : ¬ (home = [] ∨ place = []) := not_or.2 ⟨h.home_ne_nil, h.place_ne_nil⟩
  rw [h.getLast?] at hlast
  unfold Package.parts
  rw [h.cut]
  refine (if_neg hparts).trans ((if_neg hlast).trans ?_)
  rcases List.cutLast? colon place with _ | ⟨dir, root⟩ <;> rfl

namespace Spelled

theorem root_getLast? (h : Spelled arg home dir root) : root.getLast? = some (.scalar 's') := by
  obtain ⟨stem, rfl⟩ := h.isFile
  exact List.getLast?_append_of_ne_nil stem (by decide)

theorem root_ne_nil (h : Spelled arg home dir root) : root ≠ [] := by
  rintro rfl
  cases h.root_getLast?

theorem getLast? (h : Spelled arg home dir root) : arg.getLast? = some (.scalar 's') := by
  rw [h.split.getLast?, List.getLast?_append_of_ne_nil _ (List.cons_ne_nil _ _),
    List.getLast?_cons_of_ne_nil h.root_ne_nil, h.root_getLast?]

theorem last (h : Spelled arg home dir root) : arg.getLast? ≠ some CodePoint.colon := by
  rw [h.getLast?]
  decide

theorem cut {home' : RawText} (h : Spelled arg home dir root) (hsplit : Split arg home' place) :
    home' = home ∧ place.cutLast? CodePoint.colon = some (dir, root) := by
  have hcut := hsplit.cut
  rw [h.split.cut] at hcut
  cases hcut
  exact ⟨rfl, List.cutLast?_append h.colon dir⟩

theorem parts (h : Spelled arg home dir root) :
    parts .scalar arg = .ok { home, sourceDir := dir, rootFile? := some root } := by
  rw [h.split.parts h.last, (h.cut h.split).2]
  exact if_pos ⟨h.dir_ne_nil, List.isSuffixOf_iff_suffix.2 h.isFile⟩

end Spelled

theorem SpelledShort.parts (h : SpelledShort arg home dir) :
    parts .scalar arg = .ok { home, sourceDir := dir } := by
  rw [h.split.parts h.last]
  rcases hcut : List.cutLast? colon dir with _ | ⟨dir', root⟩
  · rfl
  refine if_neg fun hroot => ?_
  obtain ⟨hcolon, rfl⟩ := List.cutLast?_eq_some_iff.1 hcut
  exact h.only home dir' root ⟨h.split, hroot.1, hcolon, List.isSuffixOf_iff_suffix.1 hroot.2⟩

/-- What is not refused spells something, with a root file or without one. -/
theorem spelled_or_short (hsplit : ¬ Unsplit arg) (hlast : arg.getLast? ≠ some colon) :
    (∃ home dir root, Spelled arg home dir root) ∨ ∃ home dir, SpelledShort arg home dir := by
  obtain ⟨home, place, h⟩ := exists_split hsplit
  by_cases hroot : ∃ home dir root, Spelled arg home dir root
  · exact .inl hroot
  · exact .inr ⟨home, place, h, hlast, fun home dir root hs => hroot ⟨home, dir, root, hs⟩⟩

/-- An argument is refused that is not split or ends in a colon, and for which of the two is told. -/
theorem parts_eq_error_iff {c : ArgumentError.Cause} :
    parts .scalar arg = .error c ↔
      Unsplit arg ∧ c = .malformed ∨ ¬ Unsplit arg ∧ arg.getLast? = some colon ∧ c = .emptyRootFile := by
  by_cases hsplit : Unsplit arg
  · simp [parts_of_unsplit hsplit, hsplit, eq_comm]
  by_cases hlast : arg.getLast? = some colon
  · obtain ⟨home, place, h⟩ := exists_split hsplit
    simp [h.parts_of_colon hlast, hsplit, hlast, eq_comm]
  · rcases spelled_or_short hsplit hlast with ⟨home, dir, root, h⟩ | ⟨home, dir, h⟩ <;>
      simp [h.parts, hsplit, hlast]

theorem parts_eq_ok_iff {q : Parts CodePoint} :
    parts .scalar arg = .ok q ↔
      match q.rootFile? with
      | some root => Spelled arg q.home q.sourceDir root
      | none => SpelledShort arg q.home q.sourceDir := by
  constructor
  · intro hq
    have hsplit : ¬ Unsplit arg := fun h => by cases (parts_of_unsplit h).symm.trans hq
    have hlast : arg.getLast? ≠ some colon := fun h => by
      obtain ⟨home, place, hs⟩ := exists_split hsplit
      cases (hs.parts_of_colon h).symm.trans hq
    rcases spelled_or_short hsplit hlast with ⟨home, dir, root, h⟩ | ⟨home, dir, h⟩ <;>
      cases h.parts.symm.trans hq <;> exact h
  · obtain ⟨home, dir, root | root⟩ := q <;> exact fun h => h.parts

/-! ### What is read -/

/-- What is wrong where the root file is no text. -/
def rootFileIssues : List Issue := [⟨[.field "root_file".toList], .notUnicode⟩]

theorem ofRawArgument_of_refused {c : ArgumentError.Cause} (h : parts .scalar arg = .error c) :
    ofRawArgument arg = .error (.refused ⟨c, arg⟩) := by
  unfold ofRawArgument
  rw [h]

theorem SpelledShort.ofRawArgument (h : SpelledShort arg home dir) :
    ofRawArgument arg = .ok { home, sourceDir := dir } := by
  unfold Package.ofRawArgument
  rw [h.parts]

theorem Spelled.ofRawArgument (h : Spelled arg home dir root) :
    ofRawArgument arg =
      match RawText.text? root with
      | some rootFile => .ok { home, sourceDir := dir, rootFile }
      | none => .error (.invalid rootFileIssues) := by
  unfold Package.ofRawArgument
  rw [h.parts]
  dsimp only
  rcases hu : RawText.text? root with _ | u
  · rw [RawText.asNonemptyText_of_text? hu]
    rfl
  · obtain rfl := RawText.text?_eq_some_iff.1 hu
    have hne : u ≠ [] := fun hnil => h.root_ne_nil (congrArg Text.raw hnil)
    rw [RawText.asNonemptyText_raw hne]
    rfl

theorem ofRawArgument_cases (arg : RawText) :
    (∃ c, parts .scalar arg = .error c ∧ ofRawArgument arg = .error (.refused ⟨c, arg⟩)) ∨
      (∃ home dir, SpelledShort arg home dir ∧ ofRawArgument arg = .ok { home, sourceDir := dir }) ∨
        ∃ home dir root, Spelled arg home dir root ∧
          (RawText.text? root = none ∧ ofRawArgument arg = .error (.invalid rootFileIssues) ∨
            ∃ u, root = Text.raw u ∧ ofRawArgument arg = .ok { home, sourceDir := dir, rootFile := u }) := by
  rcases hq : parts .scalar arg with c | ⟨home, dir, root⟩
  · exact .inl ⟨c, hq, ofRawArgument_of_refused hq⟩
  have hspelled := parts_eq_ok_iff.1 hq
  cases root with
  | none => exact .inr (.inl ⟨home, dir, hspelled, hspelled.ofRawArgument⟩)
  | some root =>
    have hread := Spelled.ofRawArgument hspelled
    refine .inr (.inr ⟨home, dir, root, hspelled, ?_⟩)
    rcases hu : RawText.text? root with _ | u <;> rw [hu] at hread
    · exact .inl ⟨rfl, hread⟩
    · exact .inr ⟨u, RawText.text?_eq_some_iff.1 hu, hread⟩

theorem ofRawArgument_eq_refused_iff {e : ArgumentError} :
    ofRawArgument arg = .error (.refused e) ↔
      e.arg = arg ∧ (Unsplit arg ∧ e.cause = .malformed ∨
        ¬ Unsplit arg ∧ arg.getLast? = some colon ∧ e.cause = .emptyRootFile) := by
  rw [← parts_eq_error_iff]
  constructor
  · intro h
    rcases ofRawArgument_cases arg with
      ⟨c, hc, hread⟩ | ⟨_, _, _, hread⟩ | ⟨_, _, _, _, ⟨_, hread⟩ | ⟨_, _, hread⟩⟩ <;>
      cases hread.symm.trans h
    exact ⟨rfl, hc⟩
  · rintro ⟨rfl, hc⟩
    exact ofRawArgument_of_refused hc

theorem exists_refused_iff :
    (∃ e, ofRawArgument arg = .error (.refused e)) ↔ Unsplit arg ∨ arg.getLast? = some colon := by
  simp only [ofRawArgument_eq_refused_iff]
  constructor
  · rintro ⟨e, -, ⟨h, -⟩ | ⟨-, h, -⟩⟩
    · exact .inl h
    · exact .inr h
  · intro h
    by_cases hsplit : Unsplit arg
    · exact ⟨⟨.malformed, arg⟩, rfl, .inl ⟨hsplit, rfl⟩⟩
    · exact ⟨⟨.emptyRootFile, arg⟩, rfl, .inr ⟨hsplit, h.resolve_left hsplit, rfl⟩⟩

theorem ofRawArgument_eq_invalid_iff {is : List Issue} :
    ofRawArgument arg = .error (.invalid is) ↔
      is = rootFileIssues ∧ ∃ home dir root, Spelled arg home dir root ∧ RawText.text? root = none := by
  constructor
  · intro h
    rcases ofRawArgument_cases arg with
      ⟨_, _, hread⟩ | ⟨_, _, _, hread⟩ | ⟨home, dir, root, hspelled, ⟨hnone, hread⟩ | ⟨_, _, hread⟩⟩ <;>
      cases hread.symm.trans h
    exact ⟨rfl, home, dir, root, hspelled, hnone⟩
  · rintro ⟨rfl, home, dir, root, hspelled, hnone⟩
    rw [hspelled.ofRawArgument, hnone]

theorem ofRawArgument_eq_ok_iff {p : RawPackage} :
    ofRawArgument arg = .ok p ↔
      Spelled arg p.home p.sourceDir (Text.raw p.rootFile) ∨
        SpelledShort arg p.home p.sourceDir ∧ p.rootFile = "index.d.ts".toList := by
  constructor
  · intro h
    rcases ofRawArgument_cases arg with
      ⟨_, _, hread⟩ | ⟨_, _, hspelled, hread⟩ | ⟨_, _, _, hspelled, ⟨_, hread⟩ | ⟨_, rfl, hread⟩⟩ <;>
      cases hread.symm.trans h
    · exact .inr ⟨hspelled, rfl⟩
    · exact .inl hspelled
  · obtain ⟨home, dir, u⟩ := p
    rintro (h | ⟨h, rfl⟩)
    · rw [h.ofRawArgument, RawText.text?_raw]
    · exact h.ofRawArgument

/-- Reading arguments is the inverse of writing them. One is refused only if a part is missing, and a root file has to
be a text. From any other argument a package is read that the argument spells, with its root file if it spells one
with a root file at all. A package that is spelled with its root file comes back. -/
theorem ofRawArgument_decodes (arg : RawText) :
    ((∃ e, ofRawArgument arg = .error (.refused e)) ↔ Unsplit arg ∨ arg.getLast? = some colon) ∧
      ((∃ is, ofRawArgument arg = .error (.invalid is)) ↔
        ∃ home dir root, Spelled arg home dir root ∧ RawText.text? root = none) ∧
      (¬ (Unsplit arg ∨ arg.getLast? = some colon) →
        (∀ home dir root, Spelled arg home dir root → RawText.text? root ≠ none) →
          ∃ p, ofRawArgument arg = .ok p ∧
            (Spelled arg p.home p.sourceDir (Text.raw p.rootFile) ∨
              SpelledShort arg p.home p.sourceDir ∧ p.rootFile = "index.d.ts".toList)) ∧
      ∀ (home dir : RawText) (rootFile : Text), home ≠ [] → equals ∉ home → dir ≠ [] → ':' ∉ rootFile →
        Declaration.isFile rootFile = true → arg = home ++ equals :: (dir ++ colon :: Text.raw rootFile) →
          ofRawArgument arg = .ok { home, sourceDir := dir, rootFile } := by
  refine ⟨exists_refused_iff, ?_, fun hparts htext => ?_, fun home dir u hhome hequals hdir hcolon hfile harg => ?_⟩
  · simp [ofRawArgument_eq_invalid_iff]
  · rcases h : ofRawArgument arg with (e | is) | p
    · exact absurd (exists_refused_iff.1 ⟨e, h⟩) hparts
    · obtain ⟨-, home, dir, root, hspelled, hnone⟩ := ofRawArgument_eq_invalid_iff.1 h
      exact absurd hnone (htext home dir root hspelled)
    · exact ⟨p, rfl, ofRawArgument_eq_ok_iff.1 h⟩
  · have hroot : colon ∉ Text.raw u := by simpa [Text.raw] using hcolon
    have hsuffix : Declaration.suffix.map CodePoint.scalar <:+ Text.raw u :=
      (List.isSuffixOf_iff_suffix.1 hfile).map CodePoint.scalar
    have hsplit : Split arg home (dir ++ colon :: Text.raw u) := ⟨harg, hequals, hhome, by simp⟩
    exact ofRawArgument_eq_ok_iff.2 (.inl ⟨hsplit, hdir, hroot, hsuffix⟩)

/-- A drive letter stays with the directory, with a root file behind it and without. Half a surrogate pair comes back in
a home. -/
theorem ofRawArgument_decodes_drive :
    (∃ p, ofRawArgument (Text.raw "ns=C:\\x=y".toList) = .ok p ∧
        (Spelled (Text.raw "ns=C:\\x=y".toList) p.home p.sourceDir (Text.raw p.rootFile) ∨
          SpelledShort (Text.raw "ns=C:\\x=y".toList) p.home p.sourceDir ∧ p.rootFile = "index.d.ts".toList)) ∧
      ofRawArgument ([.surrogate 0] ++ equals :: (Text.raw "C:\\x=y".toList ++ colon :: Text.raw "main.d.ts".toList)) =
        .ok { home := [.surrogate 0], sourceDir := Text.raw "C:\\x=y".toList, rootFile := "main.d.ts".toList } := by
  have hparts : parts .scalar (Text.raw "ns=C:\\x=y".toList) =
      .ok { home := Text.raw "ns".toList, sourceDir := Text.raw "C:\\x=y".toList } := by decide
  have hshort := parts_eq_ok_iff.1 hparts
  obtain ⟨-, -, hread, -⟩ := ofRawArgument_decodes (Text.raw "ns=C:\\x=y".toList)
  obtain ⟨-, -, -, hback⟩ := ofRawArgument_decodes
    ([.surrogate 0] ++ equals :: (Text.raw "C:\\x=y".toList ++ colon :: Text.raw "main.d.ts".toList))
  exact ⟨hread (not_or.2 ⟨hshort.split.not_unsplit, hshort.last⟩)
      fun home dir root hspelled => absurd hspelled (hshort.only home dir root),
    hback _ _ _ (by decide) (by decide) (by decide) (by decide) (by decide) rfl⟩

/-- An argument that spells a home, a directory and a root file, and from which no package is read. -/
theorem ofRawArgument_invalid_surrogate :
    let root : RawText := .surrogate 0x4ff :: Text.raw ".d.ts".toList
    Spelled (Text.raw "a=b:".toList ++ root) (Text.raw "a".toList) (Text.raw "b".toList) root ∧
      ofRawArgument (Text.raw "a=b:".toList ++ root) = .error (.invalid rootFileIssues) :=
  ⟨⟨⟨by decide, by decide, by decide, by decide⟩, by decide, by decide, by decide⟩, by decide⟩

/-! ### Arguments that are texts -/

theorem parts_map {α β : Type} [DecidableEq α] [DecidableEq β] {f : α → β} (hf : Function.Injective f)
    (letter : Char → α) (arg : List α) :
    parts (f ∘ letter) (arg.map f) = (parts letter arg).map fun q =>
      { home := q.home.map f, sourceDir := q.sourceDir.map f, rootFile? := q.rootFile?.map (List.map f) } := by
  unfold parts
  simp only [Function.comp_apply, List.cutFirst?_map hf]
  rcases arg.cutFirst? (letter '=') with _ | ⟨home, place⟩
  · rfl
  have hlast : (place.map f).getLast? = some (f (letter ':')) ↔ place.getLast? = some (letter ':') := by
    rw [List.getLast?_map, Option.map_eq_some_iff]
    simp [hf.eq_iff]
  simp only [Option.map_some, Prod.map, List.map_eq_nil_iff, hlast, List.cutLast?_map hf]
  split
  · rfl
  split
  · rfl
  rcases place.cutLast? (letter ':') with _ | ⟨dir, root⟩
  · rfl
  have hsuffix : (Declaration.suffix.map (f ∘ letter)).isSuffixOf (root.map f) =
      (Declaration.suffix.map letter).isSuffixOf root := by
    rw [← List.map_map, Bool.eq_iff_iff, List.isSuffixOf_iff_suffix, List.isSuffixOf_iff_suffix]
    exact List.suffix_map_iff_of_injective hf
  simp only [Option.map_some, Prod.map, ne_eq, List.map_eq_nil_iff, hsuffix]
  split <;> rfl

/-- A text is read as a raw text of the same characters. -/
theorem ofRawArgument_raw (arg : Text) :
    ofRawArgument (Text.raw arg) =
      match ofArgument arg with
      | .ok p => .ok p.raw
      | .error e => .error (.refused e) := by
  have hparts := parts_map CodePoint.scalar_injective id arg
  rw [Function.comp_id] at hparts
  unfold ofArgument
  rcases hq : parts id arg with c | ⟨home, dir, root⟩ <;> rw [hq] at hparts
  · exact ofRawArgument_of_refused hparts
  cases root with
  | none => exact (parts_eq_ok_iff.1 hparts).ofRawArgument
  | some root =>
    have hread := Spelled.ofRawArgument (parts_eq_ok_iff.1 hparts)
    have hroot : RawText.text? (root.map CodePoint.scalar) = some root := RawText.text?_raw root
    rw [hroot] at hread
    exact hread

/-- The fields of a package, as a value to be checked. -/
def fields (p : Package) : Value :=
  .record [("namespace".toList, .text p.home), ("src_dir".toList, .text p.sourceDir),
    ("root_file".toList, .text p.rootFile)]

/-- Whatever is read from a text passes for a package. -/
theorem ofValue_of_ofArgument {arg : Text} {p : Package} (h : ofArgument arg = .ok p) : ofValue p.fields = .ok p := by
  have hraw := ofRawArgument_raw arg
  rw [h] at hraw
  refine ofValue_eq_ok.2 ⟨_, rfl, rfl, rfl, rfl, ?_⟩
  rcases ofRawArgument_eq_ok_iff.1 hraw with hspelled | ⟨-, hroot⟩
  · exact fun hnil => hspelled.root_ne_nil (congrArg Text.raw hnil)
  · rw [show p.rootFile = "index.d.ts".toList from hroot]
    decide

end Package

end Rehome
