import Mathlib.Data.List.Forall2
import Rehome.Proofs.Program.Interleaving

/-! Programs that others interfere with. What a program relies on is what the others do between its calls,
and what it guarantees is what they rely on. So each of several programs that run at the same time can be
looked at alone. -/

namespace Rehome

namespace Program

variable {α β : Type} {I : Host → Prop} {R G : Host → Host → Prop} {Q : α → Host → Prop}
  {S : β → Host → Prop} {s u : Host}

/-- As long as others keep `I` and do to a host only what `R` allows, every call of the program keeps `I` and
does to the host what `G` allows, and `Q` holds of what the program gives and leaves. -/
def Withstands (I : Host → Prop) (R G : Host → Host → Prop) (Q : α → Host → Prop) :
    Program α → Host → Prop
  | done a, s => Q a s
  | call c next, s => ∀ u, R s u → I u → I (u.answer c).2 ∧ G u (u.answer c).2 ∧
      (next (u.answer c).1).Withstands I R G Q (u.answer c).2

namespace Withstands

theorem bind {p : Program α} {f : α → Program β} (h : p.Withstands I R G Q s)
    (hf : ∀ a t, Q a t → (f a).Withstands I R G S t) : (p.bind f).Withstands I R G S s := by
  induction p generalizing s with
  | done a => exact hf a s h
  | call c next ih =>
    intro u hR hI
    obtain ⟨hI', hG, hnext⟩ := h u hR hI
    exact ⟨hI', hG, ih _ hnext⟩

/-- A program that waits for its next call withstands what is done meanwhile. -/
theorem wait {p : Program α} (h : p.Withstands I R G Q s)
    (htrans : ∀ u v w, R u v → R v w → R u w) (hQ : ∀ a u v, Q a u → R u v → Q a v) (hR : R s u) :
    p.Withstands I R G Q u := by
  cases p with
  | done a => exact hQ a s u h hR
  | call c next => exact fun v hv hI => h v (htrans s u v hR hv) hI

theorem run {p : Program α} {P : Host → Prop} (h : p.Withstands I R G Q s) (hR : ∀ u, R u u) (hs : I s)
    (hG : ∀ u v, G u v → P u → P v) (hP : P s) :
    I (Host.run p s).2 ∧ P (Host.run p s).2 ∧ Q (Host.run p s).1 (Host.run p s).2 := by
  induction p generalizing s with
  | done a => exact ⟨hs, hP, h⟩
  | call c next ih =>
    obtain ⟨hI, hstep, hnext⟩ := h s (hR s) hs
    exact ih _ hnext hI (hG _ _ hstep hP)

end Withstands

/-- What every call keeps and the program gives does not depend on what the others do. -/
theorem Keeps.withstands {Q : α → Prop} {p : Program α} (h : p.Keeps I Q) :
    p.Withstands I R (fun _ _ => True) (fun a _ => Q a) s := by
  induction p generalizing s with
  | done a => exact h
  | call c next ih => exact fun u _ hI => ⟨(h u hI).1, trivial, ih _ (h u hI).2⟩

end Program

namespace Action

variable {α β : Type} {I : Host → Prop} {R G : Host → Host → Prop} {Q : Except Fault α → Host → Prop}
  {S : Except Fault β → Host → Prop} {s : Host}

/-- The action withstands what others do. `Q` is told of its faults, too. -/
def Withstands (I : Host → Prop) (R G : Host → Host → Prop) (Q : Except Fault α → Host → Prop)
    (x : Action α) (s : Host) : Prop :=
  x.run.Withstands I R G Q s

namespace Withstands

theorem bind {x : Action α} {f : α → Action β} (h : x.Withstands I R G Q s)
    (hok : ∀ a t, Q (.ok a) t → (f a).Withstands I R G S t)
    (herror : ∀ e t, Q (.error e) t → S (.error e) t) : Withstands I R G S (x >>= f) s := by
  refine Program.Withstands.bind h fun r t hr => ?_
  cases r with
  | ok a => exact hok a t hr
  | error e => exact herror e t hr

theorem tryCatch {x : Action α} {f : Fault → Action α} {S : Except Fault α → Host → Prop}
    (h : x.Withstands I R G S s) (hok : ∀ a t, S (.ok a) t → Q (.ok a) t)
    (herror : ∀ e t, S (.error e) t → (f e).Withstands I R G Q t) :
    Withstands I R G Q (MonadExcept.tryCatch x f) s := by
  refine Program.Withstands.bind h fun r t hr => ?_
  cases r with
  | ok a => exact hok a t hr
  | error e => exact herror e t hr

end Withstands

/-- An action that withstands others does so where there are none. -/
theorem Withstands.perform {x : Action α} {r : Except Fault α} {t : Host} {P : Host → Prop}
    (h : x.Withstands I R G Q s) (hrun : s.perform x = (r, t)) (hR : ∀ u, R u u) (hs : I s)
    (hG : ∀ u v, G u v → P u → P v) (hP : P s) : I t ∧ P t ∧ Q r t := by
  obtain ⟨hI, hP', hQ⟩ := Program.Withstands.run h hR hs hG hP
  rw [show Host.run x.run s = _ from hrun] at hI hP' hQ
  exact ⟨hI, hP', hQ⟩

end Action

/-! ### Programs that run at the same time -/

/-- What each of several programs relies on, and guarantees to all others. -/
structure Compatible {ι : Type} (R G : ι → Host → Host → Prop) (is : List ι) : Prop where
  refl : ∀ i u, R i u u
  trans : ∀ i u v w, R i u v → R i v w → R i u w
  pairwise : is.Pairwise fun i j => ∀ u v, (G i u v → R j u v) ∧ (G j u v → R i u v)

section Together

variable {α ι : Type} {I : Host → Prop} {R G : ι → Host → Host → Prop} {Q : ι → α → Host → Prop}
  {is : List ι} {ps ps' : List (Program α)} {s s' : Host}

theorem Compatible.tail {i : ι} (h : Compatible R G (i :: is)) : Compatible R G is :=
  ⟨h.refl, h.trans, (List.pairwise_cons.1 h.pairwise).2⟩

namespace Host

/-- A call of one of the programs leaves each of them withstanding the others. -/
theorem Advance.withstands (h : Advance ps s ps' s') (hc : Compatible R G is)
    (hQ : ∀ i a u v, Q i a u → R i u v → Q i a v)
    (hps : List.Forall₂ (fun i p => p.Withstands I (R i) (G i) (Q i) s) is ps) (hs : I s) :
    I s' ∧ List.Forall₂ (fun i p => p.Withstands I (R i) (G i) (Q i) s') is ps' ∧
      ∃ i ∈ is, G i s s' := by
  induction h generalizing is with
  | head c next ps s =>
    cases hps with
    | @cons i _ is _ hcall hrest =>
    obtain ⟨hs', hG, hnext⟩ := hcall s (hc.refl i s) hs
    refine ⟨hs', .cons hnext ?_, i, List.mem_cons_self, hG⟩
    have hguarantee := (List.pairwise_cons.1 hc.pairwise).1
    refine (List.forall₂_iff_get.2 ?_)
    refine ⟨hrest.length_eq, fun k hk hk' => ?_⟩
    have hR := (hguarantee _ (List.get_mem is ⟨k, hk⟩) _ _).1 hG
    exact (hrest.get hk hk').wait (hc.trans _) (hQ _) hR
  | tail p _ ih =>
    cases hps with
    | @cons i _ is _ hp hrest =>
    obtain ⟨hs', hrest', j, hj, hG⟩ := ih hc.tail hrest hs
    refine ⟨hs', .cons ?_ hrest', j, List.mem_cons_of_mem _ hj, hG⟩
    have hR := ((List.pairwise_cons.1 hc.pairwise).1 j hj _ _).2 hG
    exact hp.wait (hc.trans i) (hQ i) hR

/-- What each of the programs guarantees is done by all of them together, step by step. -/
theorem Interleaves.withstands {P : Host → Prop} (h : Interleaves ps s ps' s') (hc : Compatible R G is)
    (hQ : ∀ i a u v, Q i a u → R i u v → Q i a v)
    (hps : List.Forall₂ (fun i p => p.Withstands I (R i) (G i) (Q i) s) is ps) (hs : I s)
    (hG : ∀ i ∈ is, ∀ u v, G i u v → P u → P v) (hP : P s) :
    I s' ∧ P s' ∧ List.Forall₂ (fun i p => p.Withstands I (R i) (G i) (Q i) s') is ps' := by
  induction h with
  | refl => exact ⟨hs, hP, hps⟩
  | step h _ ih =>
    obtain ⟨hs', hps', i, hi, hstep⟩ := h.withstands hc hQ hps hs
    exact ih hps' hs' (hG i hi _ _ hstep hP)

end Host

/-- Actions that end well by themselves end well together. -/
theorem Yields.of_withstands {ps : List (Program (Except Fault α))} {r : Except Fault (List α)}
    (h : Yields ps r) (hps : List.Forall₂ (fun i p => p.Withstands I (R i) (G i)
      (fun r t => ∃ a, r = .ok a ∧ Q i a t) s) is ps) :
    ∃ as, r = .ok as ∧ List.Forall₂ (fun i a => Q i a s) is as := by
  induction h generalizing is with
  | nil =>
    cases hps
    exact ⟨[], rfl, .nil⟩
  | ok _ ih =>
    cases hps with
    | cons hdone hrest =>
    obtain ⟨a, ha, hQ⟩ := hdone
    cases ha
    obtain ⟨as, has, hall⟩ := ih hrest
    cases has
    exact ⟨_, rfl, .cons hQ hall⟩
  | fault f =>
    cases hps with
    | cons hdone =>
    obtain ⟨a, ha, -⟩ := hdone
    cases ha
  | later _ ih =>
    cases hps with
    | cons _ hrest =>
    obtain ⟨as, has, -⟩ := ih hrest
    cases has

/-- Where all of them have ended well, each has done what it does if it ends well. -/
theorem Yields.forall₂ {S : ι → Except Fault α → Host → Prop} {ps : List (Program (Except Fault α))}
    {as : List α} (h : Yields ps (.ok as))
    (hps : List.Forall₂ (fun i p => p.Withstands I (R i) (G i) (S i) s) is ps) :
    List.Forall₂ (fun i a => S i (.ok a) s) is as := by
  induction as generalizing is ps with
  | nil =>
    cases h
    cases hps
    exact .nil
  | cons a as ih =>
    cases h with
    | ok h =>
    cases hps with
    | cons hdone hrest => exact .cons hdone (ih h hrest)

/-- Whichever calls come first, each action of a pool withstands the others up to its end. -/
theorem Course.pool_withstands {S : ι → Except Fault α → Host → Prop} {P : Host → Prop}
    {xs : List (Action α)} {r : Except Fault (List α)} (h : Course.pool xs s r s') (hc : Compatible R G is)
    (hS : ∀ i r u v, S i r u → R i u v → S i r v)
    (hxs : List.Forall₂ (fun i x => Action.Withstands I (R i) (G i) (S i) x s) is xs) (hs : I s)
    (hG : ∀ i ∈ is, ∀ u v, G i u v → P u → P v) (hP : P s) :
    I s' ∧ P s' ∧ ∃ ps, Yields ps r ∧
      List.Forall₂ (fun i p => p.Withstands I (R i) (G i) (S i) s') is ps := by
  obtain ⟨ps, hps, hyield⟩ := h
  obtain ⟨ht, hP', hall⟩ := hps.withstands hc hS (List.forall₂_map_right_iff.2 hxs) hs hG hP
  exact ⟨ht, hP', ps, hyield, hall⟩

/-- Each action of a pool gives what it gives alone, whatever the others do, as long as all of them keep `I`. -/
theorem Course.pool_gives {S : ι → α → Prop} {xs : List (Action α)} {as : List α}
    (h : Course.pool xs s (.ok as) s') (hxs : List.Forall₂ (fun i x => Action.Keeps I (S i) x) is xs) (hs : I s) :
    List.Forall₂ S is as := by
  obtain ⟨-, -, ps, hyield, hall⟩ := Course.pool_withstands (R := fun _ _ _ => True) (G := fun _ _ _ => True)
    (S := fun i r _ => ∀ a, r = .ok a → S i a) (P := fun _ => True) h
    ⟨fun _ _ => trivial, fun _ _ _ _ _ _ => trivial, List.pairwise_of_forall fun _ _ _ _ =>
      ⟨fun _ => trivial, fun _ => trivial⟩⟩
    (fun _ _ _ _ hS _ => hS) (hxs.imp fun _ _ hx => Program.Keeps.withstands hx) hs
    (fun _ _ _ _ _ _ => trivial) trivial
  exact (hyield.forall₂ hall).imp fun _ a hS => hS a rfl

end Together

end Rehome
