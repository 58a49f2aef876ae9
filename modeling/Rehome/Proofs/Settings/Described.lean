import Mathlib.Data.List.Forall2
import Rehome.Settings.Basic

/-! What describes settings. For each check of a value it is said which values pass it and as what, without the
check, and in the end which tables describe settings. -/

namespace Rehome

variable {α β : Type} {v : Value} {fs : List (Text × Value)} {a : α} {b : β} {i : Int} {t : Text}

namespace Checked

variable {c : Checked α} {d : Checked β}

theorem both_eq_ok : c.both d = .ok (a, b) ↔ c = .ok a ∧ d = .ok b := by
  rcases c with is | a' <;> rcases d with js | b' <;> simp [both]

theorem within_eq_ok {s : Step} : c.within s = .ok a ↔ c = .ok a := by
  rcases c with is | a' <;> simp [within, Except.mapError]

theorem map_eq_ok {ε : Type} {r : Except ε α} {f : α → β} : r.map f = .ok b ↔ ∃ a, r = .ok a ∧ f a = b := by
  rcases r with e | a' <;> simp [Except.map]

theorem bind_eq_ok {f : α → Checked β} : c.bind f = .ok b ↔ ∃ a, c = .ok a ∧ f a = .ok b := by
  rcases c with is | a' <;> simp [Except.bind]

theorem fail_ne_ok (k : Issue.Cause) : (fail k : Checked α) ≠ .ok a := nofun

end Checked

namespace Value

/-- A whole number: as such, as a truth value, as a floating-point number without a fraction that is small
enough, or as a text that spells one. -/
inductive IsInteger : Value → Int → Prop where
  | integer (i : Int) : IsInteger (.integer i) i
  | bool (b : Bool) : IsInteger (.bool b) (if b then 1 else 0)
  | number {x : Binary64} {i : Int} (hx : x.integer? = some i) (hi : i.natAbs < numberLimit) :
      IsInteger (.number x) i
  | text {t : Text} {i : Int} (ht : Number.ofField t = .ok i) : IsInteger (.text t) i

/-- The field stands for `a`, or is missing, and then `a` is the default. -/
def Optionally (fs : List (Text × Value)) (name : String) (default : α) (Is : Value → α → Prop) (a : α) : Prop :=
  match field? name.toList fs with
  | some v => Is v a
  | none => a = default

theorem asText_eq_ok : v.asText = .ok t ↔ v = .text t := by
  cases v <;> simp [asText, Checked.fail]

theorem asNonemptyText_eq_ok : v.asNonemptyText = .ok t ↔ v = .text t ∧ t ≠ [] := by
  unfold asNonemptyText
  split
  · simp only [Checked.fail_ne_ok, false_iff, not_and, not_not, text.injEq]
    exact Eq.symm
  · next hne =>
    rw [asText_eq_ok]
    refine ⟨fun h => ⟨h, ?_⟩, And.left⟩
    rintro rfl
    exact hne h

theorem asManifestName_eq_ok : v.asManifestName = .ok t ↔ v = .text t ∧ Manifest.isPlainName t = true := by
  unfold asManifestName
  rw [Checked.bind_eq_ok]
  simp only [asText_eq_ok]
  constructor
  · rintro ⟨t', rfl, h⟩
    split at h
    · next hplain =>
      cases h
      exact ⟨rfl, hplain⟩
    · cases h
  · rintro ⟨rfl, h⟩
    exact ⟨t, rfl, if_pos h⟩

theorem asInteger_eq_ok : v.asInteger = .ok i ↔ IsInteger v i := by
  constructor
  · intro h
    unfold asInteger at h
    split at h
    · cases h
      exact .bool _
    · cases h
      exact .integer i
    · cases h
    · cases h
    · split at h
      · cases h
      · next hx =>
        split at h
        · next hi =>
          cases h
          exact .number hx hi
        · cases h
    · split at h
      · next ht =>
        cases h
        exact .text ht
      · cases h
      · cases h
    · cases h
  · rintro (i | b | @⟨x, i, hx, hi⟩ | @⟨t, i, ht⟩)
    · rfl
    · rfl
    · cases x with
      | finite s e => simp only [asInteger, hx, if_pos hi]
      | infinite => cases hx
      | nan => cases hx
    · simp only [asInteger, ht]

theorem asPositive_eq_ok : v.asPositive = .ok i ↔ IsInteger v i ∧ 1 ≤ i := by
  unfold asPositive
  rw [Checked.bind_eq_ok]
  simp only [asInteger_eq_ok]
  constructor
  · rintro ⟨j, hj, h⟩
    split at h
    · cases h
    · next hlt =>
      cases h
      exact ⟨hj, Int.not_lt.1 hlt⟩
  · rintro ⟨hi, h⟩
    exact ⟨i, hi, if_neg (Int.not_lt.2 h)⟩

theorem asItems_eq_ok {check : Value → Checked α} {k : Nat} {vs : List Value} {as : List α} :
    asItems check k vs = .ok as ↔ List.Forall₂ (fun v a => check v = .ok a) vs as := by
  induction vs generalizing k as with
  | nil =>
    rw [List.forall₂_nil_left_iff]
    exact ⟨fun h => (Except.ok.inj h).symm, fun h => congrArg _ h.symm⟩
  | cons v vs ih =>
    unfold asItems
    rw [Checked.map_eq_ok, List.forall₂_cons_left_iff]
    constructor
    · rintro ⟨⟨a, as⟩, h, rfl⟩
      obtain ⟨ha, has⟩ := Checked.both_eq_ok.1 h
      exact ⟨a, as, Checked.within_eq_ok.1 ha, ih.1 has, rfl⟩
    · rintro ⟨a, as, ha, has, rfl⟩
      exact ⟨(a, as), Checked.both_eq_ok.2 ⟨Checked.within_eq_ok.2 ha, ih.2 has⟩, rfl⟩

theorem asList_eq_ok {check : Value → Checked α} {as : List α} :
    v.asList check = .ok as ↔ ∃ vs, v = .list vs ∧ List.Forall₂ (fun v a => check v = .ok a) vs as := by
  cases v <;> simp [asList, asItems_eq_ok, Checked.fail]

theorem asRecord_eq_ok {name : String} {check : List (Text × Value) → Checked α} :
    asRecord name check v = .ok a ↔ ∃ fs, v = .record fs ∧ check fs = .ok a := by
  cases v <;> simp [asRecord, Checked.fail]

theorem required_eq_ok {name : String} {check : Value → Checked α} :
    required fs name check = .ok a ↔ ∃ v, field? name.toList fs = some v ∧ check v = .ok a := by
  unfold required
  rcases field? name.toList fs with _ | v
  · simp [Checked.within_eq_ok, Checked.fail_ne_ok]
  · simp [Checked.within_eq_ok]

theorem optional_eq_ok {name : String} {default : α} {check : Value → Checked α} :
    optional fs name default check = .ok a ↔ Optionally fs name default (fun v a => check v = .ok a) a := by
  unfold optional Optionally
  rcases field? name.toList fs with _ | v
  · exact ⟨fun h => (Except.ok.inj h).symm, fun h => congrArg _ h.symm⟩
  · exact Checked.within_eq_ok

theorem Optionally.congr {name : String} {default : α} {Is Is' : Value → α → Prop}
    (h : ∀ v, Is v a ↔ Is' v a) : Optionally fs name default Is a ↔ Optionally fs name default Is' a := by
  unfold Optionally
  split
  · exact h _
  · exact Iff.rfl

end Value

open Value (field? IsInteger Optionally)

/-- The fields of a table that describes a package. -/
structure Package.Described (fs : List (Text × Value)) (p : Package) : Prop where
  home : field? "namespace".toList fs = some (.text p.home)
  sourceDir : field? "src_dir".toList fs = some (.text p.sourceDir)
  rootFile : Optionally fs "root_file" "index.d.ts".toList (fun v t => v = .text t ∧ t ≠ []) p.rootFile

theorem Package.ofValue_eq_ok {p : Package} :
    Package.ofValue v = .ok p ↔ ∃ fs, v = .record fs ∧ p.Described fs := by
  unfold Package.ofValue
  rw [Value.asRecord_eq_ok]
  refine exists_congr fun fs => and_congr_right fun _ => ?_
  rw [Checked.map_eq_ok]
  constructor
  · rintro ⟨⟨home, dir, root⟩, h, rfl⟩
    obtain ⟨hhome, h⟩ := Checked.both_eq_ok.1 h
    obtain ⟨hdir, hroot⟩ := Checked.both_eq_ok.1 h
    obtain ⟨v, hv, hhome⟩ := Value.required_eq_ok.1 hhome
    obtain ⟨w, hw, hdir⟩ := Value.required_eq_ok.1 hdir
    rw [Value.asText_eq_ok.1 hhome] at hv
    rw [Value.asText_eq_ok.1 hdir] at hw
    exact ⟨hv, hw, (Optionally.congr fun _ => Value.asNonemptyText_eq_ok).1 (Value.optional_eq_ok.1 hroot)⟩
  · rintro ⟨hhome, hdir, hroot⟩
    refine ⟨(p.home, p.sourceDir, p.rootFile), ?_, rfl⟩
    refine Checked.both_eq_ok.2 ⟨?_, Checked.both_eq_ok.2 ⟨?_, ?_⟩⟩
    · exact Value.required_eq_ok.2 ⟨_, hhome, rfl⟩
    · exact Value.required_eq_ok.2 ⟨_, hdir, rfl⟩
    · exact Value.optional_eq_ok.2 ((Optionally.congr fun _ => Value.asNonemptyText_eq_ok).2 hroot)

/-- The fields of a table that describes settings. -/
structure Settings.Described (fs : List (Text × Value)) (c : Settings) : Prop where
  destination : Optionally fs "destination" "types".toList (fun v t => v = .text t) c.destination
  manifestName : Optionally fs "manifest_name" "dts-list.ts".toList
    (fun v t => v = .text t ∧ Manifest.isPlainName t = true) c.manifestName
  workers : Optionally fs "workers" 8 (fun v i => IsInteger v i ∧ 1 ≤ i) c.workers
  packages : Optionally fs "packages" []
    (fun v ps => ∃ vs, v = .list vs ∧ List.Forall₂ (fun v p => ∃ fs, v = .record fs ∧ Package.Described fs p) vs ps)
    c.packages

theorem Settings.ofValue_eq_ok {c : Settings} :
    Settings.ofValue v = .ok c ↔ ∃ fs, v = .record fs ∧ c.Described fs := by
  have hpackages : ∀ (w : Value) (ps : List Package), w.asList Package.ofValue = .ok ps ↔
      ∃ vs, w = .list vs ∧ List.Forall₂ (fun v p => ∃ fs, v = .record fs ∧ Package.Described fs p) vs ps := by
    intro w ps
    simp only [Value.asList_eq_ok, Package.ofValue_eq_ok]
  unfold Settings.ofValue
  rw [Value.asRecord_eq_ok]
  refine exists_congr fun fs => and_congr_right fun _ => ?_
  rw [Checked.map_eq_ok]
  constructor
  · rintro ⟨⟨destination, manifestName, workers, packages⟩, h, rfl⟩
    obtain ⟨hdestination, h⟩ := Checked.both_eq_ok.1 h
    obtain ⟨hmanifest, h⟩ := Checked.both_eq_ok.1 h
    obtain ⟨hworkers, hps⟩ := Checked.both_eq_ok.1 h
    exact {
      destination := (Optionally.congr fun _ => Value.asText_eq_ok).1 (Value.optional_eq_ok.1 hdestination)
      manifestName := (Optionally.congr fun _ => Value.asManifestName_eq_ok).1 (Value.optional_eq_ok.1 hmanifest)
      workers := (Optionally.congr fun _ => Value.asPositive_eq_ok).1 (Value.optional_eq_ok.1 hworkers)
      packages := (Optionally.congr fun w => hpackages w packages).1 (Value.optional_eq_ok.1 hps) }
  · rintro ⟨hdestination, hmanifest, hworkers, hps⟩
    refine ⟨(c.destination, c.manifestName, c.workers, c.packages), ?_, rfl⟩
    refine Checked.both_eq_ok.2 ⟨?_, Checked.both_eq_ok.2 ⟨?_, Checked.both_eq_ok.2 ⟨?_, ?_⟩⟩⟩
    · exact Value.optional_eq_ok.2 ((Optionally.congr fun _ => Value.asText_eq_ok).2 hdestination)
    · exact Value.optional_eq_ok.2 ((Optionally.congr fun _ => Value.asManifestName_eq_ok).2 hmanifest)
    · exact Value.optional_eq_ok.2 ((Optionally.congr fun _ => Value.asPositive_eq_ok).2 hworkers)
    · exact Value.optional_eq_ok.2 ((Optionally.congr fun w => hpackages w c.packages).2 hps)

end Rehome
