import Rehome.Host

/-! Actions performed alone on a host, step by step. -/

namespace Rehome

namespace Program

variable {α β γ : Type}

theorem bind_done (p : Program α) : p.bind done = p := by
  induction p with
  | done a => rfl
  | call c next ih => exact congrArg (call c) (funext ih)

theorem bind_assoc (p : Program α) (f : α → Program β) (g : β → Program γ) :
    (p.bind f).bind g = p.bind fun a => (f a).bind g := by
  induction p with
  | done a => rfl
  | call c next ih => exact congrArg (call c) (funext ih)

instance : LawfulMonad Program :=
  LawfulMonad.mk' Program bind_done (fun _ _ => rfl) bind_assoc

end Program

namespace Host

variable {α β : Type}

theorem run_bind (p : Program α) (f : α → Program β) (s : Host) :
    run (p.bind f) s = run (f (run p s).1) (run p s).2 := by
  induction p generalizing s with
  | done a => rfl
  | call c next ih => exact ih _ _

/-- What an action alone on the host gives, and what it leaves. -/
def perform (s : Host) (x : Action α) : Except Fault α × Host := run x.run s

@[simp] theorem perform_pure (s : Host) (a : α) : s.perform (pure a) = (.ok a, s) := rfl

@[simp] theorem perform_throw (s : Host) (f : Fault) : s.perform (throw f : Action α) = (.error f, s) := rfl

theorem perform_bind (s : Host) (x : Action α) (f : α → Action β) :
    s.perform (x >>= f) =
      match s.perform x with
      | (.ok a, s) => s.perform (f a)
      | (.error e, s) => (.error e, s) := by
  show run (x.run.bind _) s = _
  rw [run_bind]
  unfold perform
  rcases hx : run x.run s with ⟨_ | _, t⟩ <;> rfl

theorem perform_map (s : Host) (g : α → β) (x : Action α) :
    s.perform (g <$> x) =
      match s.perform x with
      | (.ok a, s) => (.ok (g a), s)
      | (.error e, s) => (.error e, s) := by
  rw [map_eq_pure_bind, perform_bind]
  rfl

theorem perform_tryCatch (s : Host) (x : Action α) (f : Fault → Action α) :
    s.perform (tryCatch x f) =
      match s.perform x with
      | (.ok a, s) => (.ok a, s)
      | (.error e, s) => s.perform (f e) := by
  show run (x.run.bind _) s = _
  rw [run_bind]
  unfold perform
  rcases hx : run x.run s with ⟨_ | _, t⟩ <;> rfl

theorem perform_bind_ok {s t : Host} {x : Action α} {f : α → Action β} {b : β}
    (h : s.perform (x >>= f) = (.ok b, t)) :
    ∃ a u, s.perform x = (.ok a, u) ∧ u.perform (f a) = (.ok b, t) := by
  rw [perform_bind] at h
  split at h
  · next a u hx => exact ⟨a, u, hx, h⟩
  · cases h

section Primitives

variable (s : Host) (path : Text)

@[simp] theorem perform_isDirectory :
    s.perform (Action.isDirectory path) = (.ok (s.files.isDirectory s.cwd path), s) := rfl

@[simp] theorem perform_exists :
    s.perform (Action.exists path) = (.ok (s.files.exists s.cwd path), s) := rfl

@[simp] theorem perform_realPath : s.perform (Action.realPath path) = (s.realPath path, s) := rfl

@[simp] theorem perform_files :
    s.perform (Action.files path) = (.ok (s.files.files s.cwd path), s) := rfl

@[simp] theorem perform_workingDirectory :
    s.perform Action.workingDirectory = (s.workingDirectory, s) := rfl

@[simp] theorem perform_log (l : Level) (t : Text) :
    s.perform (Action.log l t) = (.ok (), { s with log := s.log ++ [⟨l, t⟩] }) := rfl

@[simp] theorem perform_write (p : Location) (t : Text) :
    s.perform (Action.write p t) = (.ok (), { s with files := s.files.putFile p (.text t) }) := rfl

theorem perform_read : s.perform (Action.read path) = s.answer (.read path) := rfl
theorem perform_makeDirectory : s.perform (Action.makeDirectory path) = s.answer (.makeDirectory path) := rfl
theorem perform_create : s.perform (Action.create path) = s.answer (.create path) := rfl
theorem perform_removeTree : s.perform (Action.removeTree path) = s.removeTree path := rfl

end Primitives

/-! ### Answers -/

section Answers

variable (s : Host) (path : Text)

theorem answer_read_host : (s.answer (.read path)).2 = s := by
  rcases hr : s.files.read s.cwd path with e | (t | b) <;>
    by_cases hnul : '\x00' ∈ path <;> simp [answer, onPath, hr, hnul, Except.map]

theorem answer_read_ok_iff {t : Text} :
    (s.answer (.read path)).1 = .ok t ↔
      '\x00' ∉ path ∧ s.files.read s.cwd path = .ok (.text t) := by
  rcases hr : s.files.read s.cwd path with e | (u | b) <;>
    by_cases hnul : '\x00' ∈ path <;> simp [answer, onPath, hr, hnul, Except.map]

theorem perform_read_ok_iff {s u : Host} {path t : Text} :
    s.perform (Action.read path) = (.ok t, u) ↔
      u = s ∧ '\x00' ∉ path ∧ s.files.read s.cwd path = .ok (.text t) := by
  rw [perform_read, ← s.answer_read_ok_iff path]
  constructor
  · intro h
    have hhost := s.answer_read_host path
    rw [h] at hhost
    exact ⟨hhost, congrArg Prod.fst h⟩
  · rintro ⟨rfl, h⟩
    exact Prod.ext h (u.answer_read_host path)

/-- A directory is made where a name is missing, or nothing is done. -/
theorem answer_makeDirectory :
    (∃ e, s.answer (.makeDirectory path) = (.error e, s)) ∨
      ∃ p n, '\x00' ∉ path ∧ s.files.find s.cwd .nameEntry path = .ok (.absent p n) ∧
        s.answer (.makeDirectory path) =
          (.ok (), { s with files := s.files.put p n .directory }) := by
  by_cases hnul : '\x00' ∈ path
  · exact .inl ⟨.nul, if_pos hnul⟩
  rcases hf : s.files.find s.cwd .nameEntry path with e | (⟨p, x⟩ | ⟨p, n⟩)
  · exact .inl ⟨.system e path, by simp [answer, onPath, hnul, FileSystem.makeDirectory, hf, Except.map]⟩
  · exact .inl ⟨.system .exists path,
      by simp [answer, onPath, hnul, FileSystem.makeDirectory, hf, Except.map]⟩
  · exact .inr ⟨p, n, hnul, rfl,
      by simp [answer, onPath, hnul, FileSystem.makeDirectory, hf, Except.map]⟩

theorem answer_makeDirectory_nil : (s.answer (.makeDirectory [])).2 = s := rfl

theorem answer_makeDirectory_cwd : (s.answer (.makeDirectory path)).2.cwd = s.cwd := by
  rcases s.answer_makeDirectory path with ⟨e, he⟩ | ⟨p, n, -, -, he⟩ <;> rw [he]

/-- A file is emptied where there is one or where its name is missing, or nothing is done. -/
theorem answer_create :
    (∃ e, s.answer (.create path) = (.error e, s)) ∨
      ∃ p, '\x00' ∉ path ∧
        ((∃ n d, p = n :: d ∧ s.files.find s.cwd .openFile path = .ok (.absent d n)) ∨
          ∃ x, x ≠ .directory ∧ s.files.find s.cwd .openFile path = .ok (.found p x)) ∧
        s.answer (.create path) =
          (.ok p, { s with files := s.files.putFile p (.text []) }) := by
  by_cases hnul : '\x00' ∈ path
  · exact .inl ⟨.nul, if_pos hnul⟩
  rcases hf : s.files.find s.cwd .openFile path with e | (⟨p, x⟩ | ⟨p, n⟩)
  · exact .inl ⟨.system e path, by simp [answer, onPath, hnul, FileSystem.create, hf]⟩
  · by_cases hx : x = .directory
    · subst hx
      exact .inl ⟨.system .isDirectory path, by simp [answer, onPath, hnul, FileSystem.create, hf]⟩
    · exact .inr ⟨p, hnul, .inr ⟨x, hx, rfl⟩, by
        cases x <;> simp_all [answer, onPath, FileSystem.create]⟩
  · exact .inr ⟨n :: p, hnul, .inl ⟨n, p, rfl, rfl⟩,
      by simp [answer, onPath, hnul, FileSystem.create, hf]⟩

end Answers

end Host

end Rehome
