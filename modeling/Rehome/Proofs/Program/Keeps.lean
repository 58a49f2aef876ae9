import Rehome.Proofs.Program.Perform

/-! Invariants of programs. What every single call of a program keeps is kept by the program, whatever
else is done between its calls. -/

namespace Rehome

namespace Program

variable {α β : Type} {I : Host → Prop} {Q R : α → Prop} {S : β → Prop}

/-- Every call of the program keeps `I`; what it gives satisfies `Q`. -/
def Keeps (I : Host → Prop) (Q : α → Prop) : Program α → Prop
  | done a => Q a
  | call c next => ∀ s, I s → I (s.answer c).2 ∧ (next (s.answer c).1).Keeps I Q

theorem Keeps.mono {p : Program α} (h : p.Keeps I Q) (hQ : ∀ a, Q a → R a) : p.Keeps I R := by
  induction p with
  | done a => exact hQ a h
  | call c next ih => exact fun s hI => ⟨(h s hI).1, ih _ (h s hI).2⟩

theorem Keeps.bind {p : Program α} {f : α → Program β} (h : p.Keeps I Q)
    (hf : ∀ a, Q a → (f a).Keeps I S) : (p.bind f).Keeps I S := by
  induction p with
  | done a => exact hf a h
  | call c next ih => exact fun s hI => ⟨(h s hI).1, ih _ (h s hI).2⟩

/-- What all calls keep is kept by any program. -/
theorem keeps_of_answer (h : ∀ c s, I s → I (s.answer c).2) (p : Program α) : p.Keeps I fun _ => True := by
  induction p with
  | done a => trivial
  | call c next ih => exact fun s hI => ⟨h c s hI, ih _⟩

end Program

namespace Host

variable {α β : Type} {I : Host → Prop} {Q : α → Prop}

theorem run_keeps {p : Program α} {s : Host} (h : p.Keeps I Q) (hI : I s) :
    I (run p s).2 ∧ Q (run p s).1 := by
  induction p generalizing s with
  | done a => exact ⟨hI, h⟩
  | call c next ih =>
    obtain ⟨hI', h'⟩ := h s hI
    exact ih _ h' hI'

end Host

namespace Action

variable {α β : Type} {I : Host → Prop} {Q R : α → Prop} {S : β → Prop}

/-- Every call of the action keeps `I`; what it gives, unless it ends with a fault, satisfies `Q`. -/
def Keeps (I : Host → Prop) (Q : α → Prop) (x : Action α) : Prop :=
  x.run.Keeps I fun r => ∀ a, r = .ok a → Q a

namespace Keeps

theorem mono {x : Action α} (h : x.Keeps I Q) (hQ : ∀ a, Q a → R a) : x.Keeps I R :=
  Program.Keeps.mono h fun _ hr a ha => hQ a (hr a ha)

theorem of_answer (h : ∀ c s, I s → I (s.answer c).2) (x : Action α) : x.Keeps I fun _ => True :=
  (Program.keeps_of_answer h x.run).mono fun _ _ _ _ => trivial

theorem pure {a : α} (h : Q a) : Keeps I Q (Pure.pure a : Action α) := by
  rintro b ⟨⟩
  exact h

theorem throw (f : Fault) : Keeps I Q (MonadExcept.throw f : Action α) := by
  rintro b ⟨⟩

theorem bind {x : Action α} {f : α → Action β} (h : x.Keeps I Q)
    (hf : ∀ a, Q a → (f a).Keeps I S) : Keeps I S (x >>= f) := by
  refine Program.Keeps.bind h fun r hr => ?_
  cases r with
  | ok a => exact hf a (hr a rfl)
  | error e => rintro b ⟨⟩

theorem tryCatch {x : Action α} {f : Fault → Action α} (h : x.Keeps I Q)
    (hf : ∀ e, (f e).Keeps I Q) : Keeps I Q (MonadExcept.tryCatch x f) := by
  refine Program.Keeps.bind h fun r hr => ?_
  cases r with
  | ok a => exact hr
  | error e => exact hf e

theorem forM {f : α → Action Unit} {l : List α} (h : ∀ a ∈ l, (f a).Keeps I fun _ => True) :
    Keeps I (fun _ => True) (l.forM f) := by
  induction l with
  | nil => exact pure trivial
  | cons a l ih =>
    rw [List.forM_eq_forM, List.forM_cons]
    exact (h a List.mem_cons_self).bind fun _ _ => ih fun a ha => h a (List.mem_cons_of_mem _ ha)

/-! What only asks leaves everything as it is. -/

theorem isDirectory (path : Text) : Keeps I (fun _ => True) (Action.isDirectory path) :=
  fun _ hI => ⟨hI, fun _ _ => trivial⟩

theorem «exists» (path : Text) : Keeps I (fun _ => True) (Action.exists path) :=
  fun _ hI => ⟨hI, fun _ _ => trivial⟩

theorem realPath (path : Text) : Keeps I (fun _ => True) (Action.realPath path) :=
  fun _ hI => ⟨hI, fun _ _ => trivial⟩

theorem workingDirectory : Keeps I (fun _ => True) Action.workingDirectory :=
  fun _ hI => ⟨hI, fun _ _ => trivial⟩

theorem files {path : Text} {Q : List (List Text) → Prop}
    (h : ∀ s, I s → Q (s.files.files s.cwd path)) : Keeps I Q (Action.files path) := by
  refine fun s hI => ⟨hI, ?_⟩
  rintro _ ⟨⟩
  exact h s hI

theorem read (path : Text) : Keeps I (fun _ => True) (Action.read path) := by
  refine fun s hI => ⟨?_, fun _ _ => trivial⟩
  have hs : (s.answer (.read path)).2 = s := s.answer_read_host path
  rwa [hs]

theorem log (hlog : ∀ s l, I s → I { s with log := l }) (level : Level) (t : Text) :
    Keeps I (fun _ => True) (Action.log level t) :=
  fun s hI => ⟨hlog s _ hI, fun _ _ => trivial⟩

/-! Every other call keeps what its answers keep. -/

theorem makeDirectory {path : Text}
    (h : ∀ s, I s → I (s.answer (.makeDirectory path)).2) :
    Keeps I (fun _ => True) (Action.makeDirectory path) :=
  fun s hI => ⟨h s hI, fun _ _ => trivial⟩

theorem create {path : Text} {Q : Location → Prop}
    (h : ∀ s, I s → I (s.answer (.create path)).2 ∧
      ∀ p, (s.answer (.create path)).1 = .ok p → Q p) : Keeps I Q (Action.create path) :=
  fun s hI => h s hI

theorem write {p : Location} {t : Text}
    (h : ∀ s, I s → I { s with files := s.files.putFile p (.text t) }) :
    Keeps I (fun _ => True) (Action.write p t) :=
  fun s hI => ⟨h s hI, fun _ _ => trivial⟩

end Keeps

end Action

end Rehome
