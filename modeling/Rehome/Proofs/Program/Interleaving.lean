import Rehome.Proofs.Program.Keeps

/-! Programs that run at the same time. Each of them makes its calls in order, and between two of these
any calls of the others may come. Which calls come first is left open, so what a pool of actions may give
and leave is a relation. -/

namespace Rehome

namespace Host

variable {α : Type} {ps ps' ps'' : List (Program α)} {s s' s'' : Host}

/-- One of the programs makes its next call. -/
inductive Advance : List (Program α) → Host → List (Program α) → Host → Prop where
  | head (c : Call) (next : c.Reply → Program α) (ps : List (Program α)) (s : Host) :
      Advance (.call c next :: ps) s (next (s.answer c).1 :: ps) (s.answer c).2
  | tail {ps ps' : List (Program α)} {s s' : Host} (p : Program α) (h : Advance ps s ps' s') :
      Advance (p :: ps) s (p :: ps') s'

/-- The programs make calls, one at a time, in some order. -/
inductive Interleaves : List (Program α) → Host → List (Program α) → Host → Prop where
  | refl (ps : List (Program α)) (s : Host) : Interleaves ps s ps s
  | step {ps ps' ps'' : List (Program α)} {s s' s'' : Host} (h : Advance ps s ps' s')
      (hrest : Interleaves ps' s' ps'' s'') : Interleaves ps s ps'' s''

theorem Advance.keeps {I : Host → Prop} {Q : α → Prop} (h : Advance ps s ps' s')
    (hps : ∀ p ∈ ps, p.Keeps I Q) (hs : I s) :
    I s' ∧ ∀ p ∈ ps', p.Keeps I Q := by
  induction h with
  | head c next ps s =>
    obtain ⟨hcall, hrest⟩ := List.forall_mem_cons.1 hps
    obtain ⟨hs', hnext⟩ := hcall s hs
    exact ⟨hs', List.forall_mem_cons.2 ⟨hnext, hrest⟩⟩
  | tail p _ ih =>
    obtain ⟨hp, hrest⟩ := List.forall_mem_cons.1 hps
    obtain ⟨hs', hrest'⟩ := ih hrest hs
    exact ⟨hs', List.forall_mem_cons.2 ⟨hp, hrest'⟩⟩

namespace Interleaves

theorem trans (h : Interleaves ps s ps' s') (h' : Interleaves ps' s' ps'' s'') :
    Interleaves ps s ps'' s'' := by
  induction h with
  | refl => exact h'
  | step hstep _ ih => exact .step hstep (ih h')

/-- One program more may wait all the while. -/
theorem tail (p : Program α) (h : Interleaves ps s ps' s') : Interleaves (p :: ps) s (p :: ps') s' := by
  induction h with
  | refl => exact .refl _ _
  | step hstep _ ih => exact .step (.tail p hstep) ih

/-- One program may make all of its calls while the others wait. -/
theorem head (p : Program α) (ps : List (Program α)) (s : Host) :
    Interleaves (p :: ps) s (.done (run p s).1 :: ps) (run p s).2 := by
  induction p generalizing s with
  | done a => exact .refl _ _
  | call c next ih => exact .step (.head c next ps s) (ih _ _)

/-- However far the programs have come, they can go on to their ends. -/
theorem complete (ps : List (Program α)) (s : Host) :
    ∃ (as : List α) (t : Host), Interleaves ps s (as.map .done) t := by
  induction ps generalizing s with
  | nil => exact ⟨[], s, .refl _ _⟩
  | cons p ps ih =>
    obtain ⟨as, t, hrest⟩ := ih (run p s).2
    exact ⟨(run p s).1 :: as, t, (head p ps s).trans (hrest.tail _)⟩

/-- What each call of every program keeps is kept, whichever calls come first. -/
theorem keeps {I : Host → Prop} {Q : α → Prop} (h : Interleaves ps s ps' s')
    (hps : ∀ p ∈ ps, p.Keeps I Q) (hs : I s) :
    I s' ∧ ∀ p ∈ ps', p.Keeps I Q := by
  induction h with
  | refl => exact ⟨hs, hps⟩
  | step h _ ih =>
    obtain ⟨hs', hps'⟩ := h.keeps hps hs
    exact ih hps' hs'

end Interleaves

/-- Every program comes to its end, and so do programs that run at the same time, whatever they are told. -/
theorem wellFounded_advance :
    WellFounded fun ps' ps : List (Program α) => ∃ s s', Advance ps s ps' s' := by
  have hcons : ∀ (p : Program α) (ps : List (Program α)),
      Acc (fun ps' ps => ∃ s s', Advance ps s ps' s') ps →
      Acc (fun ps' ps => ∃ s s', Advance ps s ps' s') (p :: ps) := by
    intro p
    induction p with
    | done a =>
      intro ps hps
      induction hps with
      | intro ps _ ih =>
        refine ⟨_, ?_⟩
        rintro _ ⟨s, s', h⟩
        cases h with
        | tail _ h => exact ih _ ⟨s, s', h⟩
    | call c next ihp =>
      intro ps hps
      induction hps with
      | intro ps hps ih =>
        refine ⟨_, ?_⟩
        rintro _ ⟨s, s', h⟩
        cases h with
        | head => exact ihp _ ps ⟨_, hps⟩
        | tail _ h => exact ih _ ⟨s, s', h⟩
  refine ⟨fun ps => ?_⟩
  induction ps with
  | nil =>
    refine ⟨_, ?_⟩
    rintro _ ⟨s, s', h⟩
    cases h
  | cons p ps ih => exact hcons p ps ih

end Host

/-- What actions give that were run at the same time: all that they gave, in order, or the first fault in
order, wherever those behind it have come. -/
inductive Yields {α : Type} : List (Program (Except Fault α)) → Except Fault (List α) → Prop where
  | nil : Yields [] (.ok [])
  | ok {a : α} {ps : List (Program (Except Fault α))} {as : List α} (h : Yields ps (.ok as)) :
      Yields (.done (.ok a) :: ps) (.ok (a :: as))
  | fault (f : Fault) (ps : List (Program (Except Fault α))) : Yields (.done (.error f) :: ps) (.error f)
  | later {a : α} {ps : List (Program (Except Fault α))} {f : Fault} (h : Yields ps (.error f)) :
      Yields (.done (.ok a) :: ps) (.error f)

/-- What may be done by actions that run one after the other, some of them made of actions that run at the
same time: from which hosts they come to which hosts, and what they give. -/
def Course (α : Type) : Type := Host → Except Fault α → Host → Prop

namespace Course

variable {α β : Type} {s t : Host}

instance : Monad Course where
  pure a := fun s r t => r = .ok a ∧ t = s
  bind x f := fun s r t =>
    (∃ a u, x s (.ok a) u ∧ f a u r t) ∨ ∃ e, x s (.error e) t ∧ r = .error e

/-- An action takes its one course alone. -/
instance : MonadLift (ExceptT Fault Program) Course where
  monadLift x := fun s r t => s.perform x = (r, t)

/-- Actions that run at the same time. -/
def pool (xs : List (Action α)) : Course (List α) := fun s r t =>
  ∃ ps, Host.Interleaves (xs.map (·.run)) s ps t ∧ Yields ps r

theorem bind_iff {x : Course α} {f : α → Course β} {r : Except Fault β} :
    (x >>= f) s r t ↔ (∃ a u, x s (.ok a) u ∧ f a u r t) ∨ ∃ e, x s (.error e) t ∧ r = .error e :=
  Iff.rfl

/-- What ends well in two steps ends well in the first. -/
theorem bind_ok {x : Course α} {f : α → Course β} {b : β} (h : (x >>= f) s (.ok b) t) :
    ∃ a u, x s (.ok a) u ∧ f a u (.ok b) t := by
  rcases bind_iff.1 h with h | ⟨e, -, he⟩
  · exact h
  · cases he

/-- What goes on after an action that gives `a` in each of its courses goes on with that. -/
theorem bind_of_ok {x : Course α} {f : α → Course β} {a : α} {P : Host → Prop} {r : Except Fault β}
    (hx : ∀ r u, x s r u → r = .ok a ∧ P u) (h : (x >>= f) s r t) : ∃ u, P u ∧ f a u r t := by
  rcases bind_iff.1 h with ⟨a', u, hxa, hfa⟩ | ⟨e, hxe, -⟩
  · obtain ⟨ha, hu⟩ := hx _ u hxa
    cases ha
    exact ⟨u, hu, hfa⟩
  · cases (hx _ t hxe).1

theorem map_ok {x : Course α} {f : α → β} {b : β} (h : (f <$> x) s (.ok b) t) : ∃ a, x s (.ok a) t ∧ b = f a := by
  obtain ⟨a, _, ha, hb, rfl⟩ := bind_ok h
  exact ⟨a, ha, Except.ok.inj hb⟩

instance : LawfulMonad Course := LawfulMonad.mk' Course
  (by
    intro α x
    funext s r t
    refine propext ⟨?_, fun h => ?_⟩
    · rintro (⟨a, u, hx, rfl, rfl⟩ | ⟨e, hx, rfl⟩) <;> exact hx
    · cases r with
      | ok a => exact .inl ⟨a, t, h, rfl, rfl⟩
      | error e => exact .inr ⟨e, h, rfl⟩)
  (by
    intro α β a f
    funext s r t
    refine propext ⟨?_, fun h => .inl ⟨a, s, ⟨rfl, rfl⟩, h⟩⟩
    rintro (⟨_, _, ⟨⟨⟩, rfl⟩, h⟩ | ⟨e, ⟨⟨⟩, -⟩, -⟩)
    exact h)
  (by
    intro α β γ x f g
    funext s r t
    refine propext ⟨?_, ?_⟩
    · rintro (⟨b, v, ⟨a, u, hx, hf⟩ | ⟨e, -, ⟨⟩⟩, hg⟩ | ⟨e, ⟨a, u, hx, hf⟩ | ⟨_, hx, ⟨⟩⟩, rfl⟩)
      · exact .inl ⟨a, u, hx, .inl ⟨b, v, hf, hg⟩⟩
      · exact .inl ⟨a, u, hx, .inr ⟨e, hf, rfl⟩⟩
      · exact .inr ⟨e, hx, rfl⟩
    · rintro (⟨a, u, hx, ⟨b, v, hf, hg⟩ | ⟨e, hf, rfl⟩⟩ | ⟨e, hx, rfl⟩)
      · exact .inl ⟨b, v, .inl ⟨a, u, hx, hf⟩, hg⟩
      · exact .inr ⟨e, .inl ⟨a, u, hx, hf⟩, rfl⟩
      · exact .inr ⟨e, .inr ⟨e, hx, rfl⟩, rfl⟩)

theorem lift_iff {x : Action α} {r : Except Fault α} :
    (liftM x : Course α) s r t ↔ s.perform x = (r, t) :=
  Iff.rfl

theorem bind_lift {x : Action α} {f : α → Course β} {a : α} {u : Host} {r : Except Fault β}
    (hx : s.perform x = (.ok a, u)) (h : (liftM x >>= f : Course β) s r t) : f a u r t := by
  have hall : ∀ r v, (liftM x : Course α) s r v → r = .ok a ∧ v = u := by
    intro r v hrun
    rw [lift_iff, hx] at hrun
    cases hrun
    exact ⟨rfl, rfl⟩
  obtain ⟨_, rfl, hfa⟩ := bind_of_ok hall h
  exact hfa

/-- What holds before any result, and lasts with each one more, holds with those of a whole list. -/
theorem mapM_ok {I : List β → Host → Prop} {f : α → Course β} {l : List α} {bs : List β}
    (h : l.mapM f s (.ok bs) t) (hnil : I [] s)
    (hstep : ∀ a ∈ l, ∀ done b u v, I done u → f a u (.ok b) v → I (done ++ [b]) v) : I bs t := by
  suffices hall : ∀ done, I done s → I (done ++ bs) t from hall [] hnil
  clear hnil
  induction l generalizing s bs with
  | nil =>
    rw [List.mapM_nil] at h
    obtain ⟨hbs, rfl⟩ := h
    cases hbs
    intro done hdone
    rwa [List.append_nil]
  | cons a l ih =>
    rw [List.mapM_cons] at h
    obtain ⟨b, u, hb, h⟩ := bind_ok h
    obtain ⟨bs, v, hbs, hpure, rfl⟩ := bind_ok h
    cases hpure
    intro done hdone
    have hnext := hstep a List.mem_cons_self done b s u hdone hb
    rw [List.append_cons]
    exact ih hbs (fun a ha => hstep a (List.mem_cons_of_mem _ ha)) _ hnext

/-- To perform the action alone is one of the courses. -/
def Allows (c : Course α) (x : Action α) : Prop := ∀ s r t, s.perform x = (r, t) → c s r t

namespace Allows

theorem pure (a : α) : Allows (Pure.pure a) (Pure.pure a) := by
  rintro s r t ⟨⟩
  exact ⟨rfl, rfl⟩

theorem lift (x : Action α) : Allows (liftM x) x := fun _ _ _ h => h

theorem bind {c : Course α} {x : Action α} {g : α → Course β} {f : α → Action β} (h : c.Allows x)
    (hf : ∀ a, (g a).Allows (f a)) : Allows (c >>= g) (x >>= f) := by
  intro s r t hrun
  rw [Host.perform_bind] at hrun
  rcases hx : s.perform x with ⟨e | a, u⟩ <;> rw [hx] at hrun
  · cases hrun
    exact .inr ⟨e, h s _ t hx, rfl⟩
  · exact .inl ⟨a, u, h s _ u hx, hf a u r t hrun⟩

/-- To run actions one after the other is one way to run them at the same time. -/
theorem pool (f : α → Action β) (l : List α) : Allows (pool (l.map f)) (l.mapM f) := by
  intro s r t h
  induction l generalizing s r with
  | nil =>
    cases h
    exact ⟨[], .refl _ _, .nil⟩
  | cons a l ih =>
    rw [List.mapM_cons, Host.perform_bind] at h
    have hhead := Host.Interleaves.head (f a).run ((l.map f).map (·.run)) s
    rcases hperform : s.perform (f a) with ⟨e | b, u⟩ <;> rw [hperform] at h <;>
      rw [show Host.run (f a).run s = _ from hperform] at hhead
    · cases h
      exact ⟨_, hhead, .fault e _⟩
    · dsimp only at h
      rw [Host.perform_bind] at h
      rcases hrest : u.perform (l.mapM f) with ⟨e | bs, v⟩ <;> rw [hrest] at h <;> cases h
      · obtain ⟨ps, hps, hyield⟩ := ih u _ hrest
        exact ⟨_, hhead.trans (hps.tail _), .later hyield⟩
      · obtain ⟨ps, hps, hyield⟩ := ih u _ hrest
        exact ⟨_, hhead.trans (hps.tail _), .ok hyield⟩

theorem mapM {g : α → Course β} {f : α → Action β} (h : ∀ a, (g a).Allows (f a)) (l : List α) :
    Allows (l.mapM g) (l.mapM f) := by
  induction l with
  | nil => exact pure []
  | cons a l ih =>
    rw [List.mapM_cons, List.mapM_cons]
    exact (h a).bind fun b => ih.bind fun bs => pure _

theorem foldlM {g : β → α → Course β} {f : β → α → Action β} (h : ∀ b a, (g b a).Allows (f b a))
    (b : β) (l : List α) : Allows (l.foldlM g b) (l.foldlM f b) := by
  induction l generalizing b with
  | nil => exact pure b
  | cons a l ih =>
    rw [List.foldlM_cons, List.foldlM_cons]
    exact (h b a).bind fun b => ih b

end Allows

/-- The course keeps `I`, and what it gives, unless it ends with a fault, satisfies `Q`. -/
def Keeps (I : Host → Prop) (Q : α → Prop) (x : Course α) : Prop :=
  ∀ s r t, x s r t → I s → I t ∧ ∀ a, r = .ok a → Q a

namespace Keeps

variable {I : Host → Prop} {Q : α → Prop} {S : β → Prop}

theorem pure {a : α} (h : Q a) : Keeps I Q (Pure.pure a : Course α) := by
  rintro s r t ⟨rfl, rfl⟩ hs
  refine ⟨hs, ?_⟩
  rintro b ⟨⟩
  exact h

theorem lift {x : Action α} (h : x.Keeps I Q) : Keeps I Q (liftM x : Course α) := by
  intro s r t hx hs
  have hrun := Host.run_keeps h hs
  rwa [show Host.run x.run s = _ from hx] at hrun

theorem bind {x : Course α} {f : α → Course β} (h : x.Keeps I Q) (hf : ∀ a, Q a → (f a).Keeps I S) :
    Keeps I S (x >>= f) := by
  intro s r t hxf hs
  rcases bind_iff.1 hxf with ⟨a, u, hx, hfa⟩ | ⟨e, hx, rfl⟩
  · obtain ⟨hu, hQ⟩ := h s _ u hx hs
    exact hf a (hQ a rfl) u r t hfa hu
  · refine ⟨(h s _ t hx hs).1, ?_⟩
    rintro b ⟨⟩

theorem pool {xs : List (Action α)} (h : ∀ x ∈ xs, x.Keeps I Q) :
    Keeps I (fun as => ∀ a ∈ as, Q a) (pool xs) := by
  rintro s r t ⟨ps, hps, hyield⟩ hs
  have hall : ∀ p ∈ xs.map (·.run),
      p.Keeps I fun r : Except Fault α => ∀ a, r = .ok a → Q a :=
    List.forall_mem_map.2 h
  obtain ⟨ht, hdone⟩ := hps.keeps hall hs
  refine ⟨ht, ?_⟩
  clear hps hall
  induction hyield with
  | nil =>
    rintro _ ⟨⟩
    exact fun a ha => absurd ha List.not_mem_nil
  | ok _ ih =>
    rintro _ ⟨⟩
    obtain ⟨ha, hps⟩ := List.forall_mem_cons.1 hdone
    exact List.forall_mem_cons.2 ⟨ha _ rfl, ih hps _ rfl⟩
  | fault => rintro _ ⟨⟩
  | later => rintro _ ⟨⟩

theorem foldlM {f : β → α → Course β} {l : List α} {b : β} (hb : S b)
    (h : ∀ a ∈ l, ∀ b, S b → (f b a).Keeps I S) : Keeps I S (l.foldlM f b) := by
  induction l generalizing b with
  | nil => exact pure hb
  | cons a l ih =>
    exact (h a List.mem_cons_self b hb).bind fun b hb =>
      ih hb fun a ha => h a (List.mem_cons_of_mem _ ha)

end Keeps

/-! ### Turns of a fold -/

section Turn

variable {γ : Type} {g : β → α → Course β} {k : β → Course γ} {l : List α} {b b' : β} {a a' : α} {u v : Host}
  {r : Except Fault γ}

/-- A fold over `l` that `k` comes after, and that ends with `r` at `t`, comes by `u` when it is the turn
of `a`. -/
def Turn (g : β → α → Course β) (k : β → Course γ) (l : List α) (b : β) (s : Host) (r : Except Fault γ)
    (t : Host) (a : α) (u : Host) : Prop :=
  ∃ before after b', l = before ++ a :: after ∧ before.foldlM g b s (.ok b') u ∧
    ((a :: after).foldlM g b' >>= k) u r t

theorem Turn.first (h : ((a :: l).foldlM g b >>= k) s r t) : Turn g k (a :: l) b s r t a s :=
  ⟨[], l, b, rfl, ⟨rfl, rfl⟩, h⟩

theorem Turn.later (ha : g b a s (.ok b') u) (h : Turn g k l b' u r t a' v) :
    Turn g k (a :: l) b s r t a' v := by
  obtain ⟨before, after, b'', rfl, hbefore, hafter⟩ := h
  exact ⟨a :: before, after, b'', rfl, by rw [List.foldlM_cons]; exact .inl ⟨b', u, ha, hbefore⟩, hafter⟩

/-- What has its turn has it in a course of the whole fold. -/
theorem Turn.course (h : Turn g k l b s r t a u) : a ∈ l ∧ (l.foldlM g b >>= k) s r t := by
  obtain ⟨before, after, b', rfl, hbefore, hafter⟩ := h
  refine ⟨List.mem_append_right _ List.mem_cons_self, ?_⟩
  rw [List.foldlM_append, bind_assoc]
  exact .inl ⟨b', u, hbefore, hafter⟩

/-- What each step of a fold keeps when it has its turn is kept by the course. -/
theorem Turn.keeps {I : Host → Prop} {Q : γ → Prop}
    (hstep : ∀ a u, Turn g k l b s r t a u → ∀ b' r' v, g b' a u r' v → I u → I v)
    (hk : ∀ b, (k b).Keeps I Q) (h : (l.foldlM g b >>= k) s r t) (hs : I s) :
    I t ∧ ∀ c, r = .ok c → Q c := by
  induction l generalizing s b with
  | nil =>
    rw [List.foldlM_nil, pure_bind] at h
    exact hk b s r t h hs
  | cons a l ih =>
    have hfirst := hstep a s (.first h) b
    rw [List.foldlM_cons, bind_assoc] at h
    rcases bind_iff.1 h with ⟨b', u, ha, hrest⟩ | ⟨e, ha, rfl⟩
    · exact ih (fun a' v hturn => hstep a' v (hturn.later ha)) hrest (hfirst _ u ha hs)
    · refine ⟨hfirst _ t ha hs, ?_⟩
      rintro _ ⟨⟩

end Turn

end Course

end Rehome
