import Rehome.Proofs.Program.Interleaving

/-! The faults that programs may end with. A host tells only a few kinds of faults of its calls, whatever
state it is in; all others come from the program itself. -/

namespace Rehome

/-- The faults that a host may tell of a call. -/
inductive Fault.OfHost : Fault → Prop where
  | system (error : SystemError) (path : Text) : OfHost (.system error path)
  | linkedDirectory : OfHost .linkedDirectory
  | nul : OfHost .nul
  | notText : OfHost .notText
  | noWorkingDirectory : OfHost .noWorkingDirectory

namespace Host

variable {α : Type} {s : Host} {path : Text} {f : Fault}

theorem ofHost_of_onPath {x : Except SystemError (α × FileSystem)} (h : (s.onPath path x).1 = .error f) :
    f.OfHost := by
  unfold onPath at h
  split at h
  · cases h
    exact .nul
  · split at h
    · cases h
    · cases h
      exact .system _ _

theorem ofHost_of_workingDirectory (h : s.workingDirectory = .error f) : f.OfHost := by
  unfold workingDirectory at h
  split at h
  · cases h
  · cases h
    exact .noWorkingDirectory

theorem ofHost_of_read (h : (s.answer (.read path)).1 = .error f) : f.OfHost := by
  simp only [answer] at h
  split at h
  · cases h
  · cases h
    exact .notText
  · next he =>
    cases h
    exact ofHost_of_onPath (congrArg Prod.fst he)

theorem ofHost_of_removeTree (h : (s.removeTree path).1 = .error f) : f.OfHost := by
  unfold removeTree at h
  split at h
  · cases h
    exact .nul
  · split at h <;> cases h
    · exact .system _ _
    · exact .linkedDirectory

end Host

namespace Action

variable {α β : Type} {F : Fault → Prop}

/-- Wherever it is performed, the action ends with no fault but those of `F`. -/
def FaultsIn (F : Fault → Prop) (x : Action α) : Prop :=
  x.run.Keeps (fun _ => True) fun r => ∀ f, r = .error f → F f

namespace FaultsIn

theorem pure (a : α) : FaultsIn F (Pure.pure a : Action α) := by
  rintro f ⟨⟩

theorem throw {f : Fault} (h : F f) : FaultsIn F (MonadExcept.throw f : Action α) := by
  rintro g ⟨⟩
  exact h

theorem bind {x : Action α} {f : α → Action β} (h : x.FaultsIn F) (hf : ∀ a, (f a).FaultsIn F) :
    FaultsIn F (x >>= f) := by
  refine Program.Keeps.bind h fun r hr => ?_
  cases r with
  | ok a => exact hf a
  | error e =>
    rintro g ⟨⟩
    exact hr e rfl

theorem tryCatch {x : Action α} {f : Fault → Action α} (h : x.FaultsIn F)
    (hf : ∀ e, F e → (f e).FaultsIn F) : FaultsIn F (MonadExcept.tryCatch x f) := by
  refine Program.Keeps.bind h fun r hr => ?_
  cases r with
  | ok a => rintro g ⟨⟩
  | error e => exact hf e (hr e rfl)

/-! What always has an answer. -/

theorem isDirectory (path : Text) : (Action.isDirectory path).FaultsIn F :=
  fun _ _ => ⟨trivial, by rintro f ⟨⟩⟩

theorem «exists» (path : Text) : (Action.exists path).FaultsIn F :=
  fun _ _ => ⟨trivial, by rintro f ⟨⟩⟩

theorem files (path : Text) : (Action.files path).FaultsIn F :=
  fun _ _ => ⟨trivial, by rintro f ⟨⟩⟩

theorem write (p : Location) (t : Text) : (Action.write p t).FaultsIn F :=
  fun _ _ => ⟨trivial, by rintro f ⟨⟩⟩

theorem log (level : Level) (t : Text) : (Action.log level t).FaultsIn F :=
  fun _ _ => ⟨trivial, by rintro f ⟨⟩⟩

/-! What may fail ends with a fault that the host tells. -/

variable (hF : ∀ f, Fault.OfHost f → F f)
include hF

theorem read (path : Text) : (Action.read path).FaultsIn F :=
  fun _ _ => ⟨trivial, fun f h => hF f (Host.ofHost_of_read h)⟩

theorem makeDirectory (path : Text) : (Action.makeDirectory path).FaultsIn F :=
  fun _ _ => ⟨trivial, fun f h => hF f (Host.ofHost_of_onPath h)⟩

theorem create (path : Text) : (Action.create path).FaultsIn F :=
  fun _ _ => ⟨trivial, fun f h => hF f (Host.ofHost_of_onPath h)⟩

theorem removeTree (path : Text) : (Action.removeTree path).FaultsIn F :=
  fun _ _ => ⟨trivial, fun f h => hF f (Host.ofHost_of_removeTree h)⟩

theorem workingDirectory : Action.workingDirectory.FaultsIn F :=
  fun _ _ => ⟨trivial, fun f h => hF f (Host.ofHost_of_workingDirectory h)⟩

end FaultsIn

end Action

namespace Course

variable {α β : Type} {F : Fault → Prop}

/-- The course ends with no fault but those of `F`. -/
def FaultsIn (F : Fault → Prop) (x : Course α) : Prop := ∀ s f t, x s (.error f) t → F f

namespace FaultsIn

theorem pure (a : α) : FaultsIn F (Pure.pure a : Course α) := by
  rintro s f t ⟨⟨⟩, -⟩

theorem lift {x : Action α} (h : x.FaultsIn F) : FaultsIn F (liftM x : Course α) := by
  intro s f t hx
  have hrun := (Host.run_keeps h (s := s) trivial).2
  rw [show Host.run x.run s = _ from hx] at hrun
  exact hrun f rfl

theorem bind {x : Course α} {f : α → Course β} (h : x.FaultsIn F) (hf : ∀ a, (f a).FaultsIn F) :
    FaultsIn F (x >>= f) := by
  intro s g t hxf
  rcases bind_iff.1 hxf with ⟨a, u, -, hfa⟩ | ⟨e, hx, he⟩
  · exact hf a u g t hfa
  · cases he
    exact h s _ t hx

theorem pool {xs : List (Action α)} (h : ∀ x ∈ xs, x.FaultsIn F) : FaultsIn F (pool xs) := by
  rintro s f t ⟨ps, hps, hyield⟩
  have hall : ∀ p ∈ xs.map (·.run), p.Keeps (fun _ => True)
      fun r : Except Fault α => ∀ f, r = .error f → F f := List.forall_mem_map.2 h
  have hdone := (hps.keeps hall trivial).2
  clear hps hall
  generalize hr : (Except.error f : Except Fault (List α)) = r at hyield
  induction hyield with
  | nil => cases hr
  | ok _ _ => cases hr
  | fault =>
    cases hr
    exact hdone _ List.mem_cons_self _ rfl
  | later _ ih => exact ih (fun p hp => hdone p (List.mem_cons_of_mem _ hp)) hr

theorem foldlM {f : β → α → Course β} {l : List α} (b : β) (h : ∀ a ∈ l, ∀ b, (f b a).FaultsIn F) :
    FaultsIn F (l.foldlM f b) := by
  induction l generalizing b with
  | nil => exact pure b
  | cons a l ih =>
    exact (h a List.mem_cons_self b).bind fun b => ih b fun a ha => h a (List.mem_cons_of_mem _ ha)

end FaultsIn

end Course

end Rehome
