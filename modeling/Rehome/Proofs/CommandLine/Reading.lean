import Rehome.CommandLine.Run
import Rehome.Proofs.Text.Cut

/-! Reading command lines whose options stand before an equals sign and their values behind it. -/

namespace Rehome.CommandLine

/-- The value that an option is given behind its equals sign. A separator is none. -/
def attached (v : Text) : Option Text := if v = separator then none else some v

/-- The word that gives an option a value. -/
def withValue (name v : Text) : Text := name ++ '=' :: v

namespace Grammar

variable {σ : Type} {g : Grammar σ} {e : Effect σ} {w name v : Text} {ws : List Text} {x : Word σ}

/-- No option has an equals sign in its name. -/
def EqualsFree (g : Grammar σ) : Prop := ∀ n ∈ g.names, '=' ∉ n.1

theorem find?_withValue (hg : g.EqualsFree) : g.find? (withValue name v) = none := by
  rw [find?, Option.map_eq_none_iff, List.find?_eq_none]
  intro n hn he
  refine hg n hn ?_
  rw [of_decide_eq_true he]
  simp [withValue]

theorem withValue_cases (hlong : isLong name = true) :
    withValue name v ≠ separator ∧
      ¬ ((withValue name v).head? ≠ some '-' ∨ (withValue name v).length < 2) ∧
      isLong (withValue name v) = true := by
  obtain ⟨rest, rfl⟩ := List.isPrefixOf_iff_prefix.1 hlong
  have hword : withValue (separator ++ rest) v = separator ++ (rest ++ '=' :: v) := List.append_assoc ..
  rw [hword]
  refine ⟨fun h => ?_, ?_, List.isPrefixOf_iff_prefix.2 (List.prefix_append ..)⟩
  · simpa using congrArg List.length h
  · rintro (hhead | hlen)
    · exact hhead rfl
    · rw [List.length_append] at hlen
      have htwo : separator.length = 2 := rfl
      omega

theorem classify_withValue (hg : g.EqualsFree) (hlong : isLong name = true) (hname : '=' ∉ name)
    (he : g.find? name = some e) :
    g.classify (withValue name v) = .ok (.option e false (some v)) := by
  obtain ⟨hsep, hoption, hword⟩ := withValue_cases (v := v) hlong
  have hcut : (withValue name v).cutFirst? '=' = some (name, v) := List.cutFirst?_append hname v
  rw [classify, if_neg hsep, if_neg hoption, find?_withValue hg]
  simp [hcut, he, hword]

theorem classifyAll_cons (hw : g.classify w = .ok x) (hx : x ≠ .separator) {xs : List (Text × Word σ)}
    (hws : g.classifyAll ws = .ok xs) : g.classifyAll (w :: ws) = .ok ((w, x) :: xs) := by
  rw [classifyAll, hw, hws]
  cases x with
  | separator => exact absurd rfl hx
  | _ => rfl

/-- An option that may be given without a value takes what is attached to it. -/
theorem read_withValue {f : Option Text → σ → σ} {r : Reading σ} {xs : List (Text × Word σ)} :
    g.read r ((w, .option (.valued fun v x => .ok (f v x)) false (some v)) :: xs) =
      g.read { r with result := f (attached v) r.result, afterOperand := false } xs := by
  rw [read, steps]
  rfl

/-- An option that is given with a value attached, and what it changes. -/
structure Given (σ : Type) where
  name : Text
  set : Option Text → σ → σ
  value : Text

namespace Given

def word (o : Given σ) : Text := withValue o.name o.value

def apply (x : σ) (o : Given σ) : σ := o.set (attached o.value) x

/-- The option is one of the grammar, by its long name. -/
structure Known (g : Grammar σ) (o : Given σ) : Prop where
  isLong : isLong o.name = true
  equalsFree : '=' ∉ o.name
  find : g.find? o.name = some (.valued fun v x => .ok (o.set v x))

theorem classifyAll (hg : g.EqualsFree) {os : List (Given σ)} (h : ∀ o ∈ os, o.Known g) :
    g.classifyAll (os.map word) =
      .ok (os.map fun o => (o.word, .option (.valued fun v x => .ok (o.set v x)) false (some o.value))) := by
  induction os with
  | nil => rfl
  | cons o os ih =>
    obtain ⟨hlong, hequals, hfind⟩ := h o List.mem_cons_self
    have hrest := ih fun p hp => h p (List.mem_cons_of_mem _ hp)
    exact classifyAll_cons (classify_withValue hg hlong hequals hfind) (by simp) hrest

theorem read (os : List (Given σ)) (r : Reading σ) :
    ∃ after, g.read r
        (os.map fun o => (o.word, .option (.valued fun v x => .ok (o.set v x)) false (some o.value))) =
      .ok { r with result := os.foldl apply r.result, afterOperand := after } := by
  induction os generalizing r with
  | nil => exact ⟨r.afterOperand, rfl⟩
  | cons o os ih =>
    obtain ⟨after, hrest⟩ := ih { r with result := o.set (attached o.value) r.result, afterOperand := false }
    exact ⟨after, read_withValue.trans hrest⟩

end Given

end Grammar

open Grammar

variable {file home relPath rootFile : Text}

/-- The options for the place of a file in its package, with their values. -/
def Single.given (home relPath rootFile : Text) : List (Given Single) :=
  [⟨"--namespace".toList, fun v o => { o with home := v.getD [] }, home⟩,
   ⟨"--rel-path".toList, fun v o => { o with relPath := v.getD [] }, relPath⟩,
   ⟨"--root-file".toList, fun v o => { o with rootFile := v }, rootFile⟩]

/-- The words that ask for a file to be rehomed as the one at a path of a package. -/
def Single.words (file home relPath rootFile : Text) : List Text :=
  "rewrite".toList :: file :: (Single.given home relPath rootFile).map Given.word

end Rehome.CommandLine
