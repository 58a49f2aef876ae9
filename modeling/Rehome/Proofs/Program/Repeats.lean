import Rehome.Proofs.Program.Perform

/-! Actions performed on two hosts. What an action gives on one host it gives on the other, and the hosts
stay related, as long as this holds of each of its steps. -/

namespace Rehome.Action

variable {α β : Type} {R : Host → Host → Prop} {Q : α → Prop} {S : β → Prop}

/-- Where the action succeeds, it does so on every related host, with the same result, which satisfies `Q`,
and leaves related hosts. -/
def Repeats (R : Host → Host → Prop) (Q : α → Prop) (x : Action α) : Prop :=
  ∀ s s' a t, R s s' → s.perform x = (.ok a, t) →
    Q a ∧ ∃ t', s'.perform x = (.ok a, t') ∧ R t t'

namespace Repeats

theorem pure {a : α} (h : Q a) : Repeats R Q (Pure.pure a : Action α) := by
  intro s s' b t hR hs
  cases hs
  exact ⟨h, s', rfl, hR⟩

theorem throw (f : Fault) : Repeats R Q (MonadExcept.throw f : Action α) := by
  intro s s' b t hR hs
  cases hs

theorem bind {x : Action α} {f : α → Action β} (h : x.Repeats R Q)
    (hf : ∀ a, Q a → (f a).Repeats R S) : Repeats R S (x >>= f) := by
  intro s s' b t hR hs
  obtain ⟨a, u, hx, hrest⟩ := Host.perform_bind_ok hs
  obtain ⟨hQ, u', hx', hR'⟩ := h s s' a u hR hx
  obtain ⟨hS, t', hrest', hR''⟩ := hf a hQ u u' b t hR' hrest
  refine ⟨hS, t', ?_, hR''⟩
  rw [Host.perform_bind, hx']
  exact hrest'

theorem mapM {f : α → Action β} {l : List α} (h : ∀ a ∈ l, (f a).Repeats R S) :
    Repeats R (fun _ => True) (l.mapM f) := by
  induction l with
  | nil => exact pure trivial
  | cons a l ih =>
    rw [List.mapM_cons]
    refine (h a List.mem_cons_self).bind fun b _ => ?_
    exact (ih fun a ha => h a (List.mem_cons_of_mem _ ha)).bind fun bs _ => pure trivial

theorem foldlM {f : β → α → Action β} {l : List α} (b : β)
    (h : ∀ a ∈ l, ∀ b, (f b a).Repeats R fun _ => True) :
    Repeats R (fun _ => True) (l.foldlM f b) := by
  induction l generalizing b with
  | nil => exact pure trivial
  | cons a l ih =>
    rw [List.foldlM_cons]
    exact (h a List.mem_cons_self b).bind fun b _ =>
      ih b fun a ha => h a (List.mem_cons_of_mem _ ha)

theorem log (hlog : ∀ s s' l l', R s s' → R { s with log := l } { s' with log := l' }) (level : Level)
    (t : Text) : Repeats R (fun _ => True) (Action.log level t) := by
  intro s s' b u hR hs
  cases hs
  exact ⟨trivial, _, rfl, hlog s s' _ _ hR⟩

end Repeats

end Rehome.Action
