import Rehome.Proofs.Statement.Passes

/-! Lines of several statements. Each pass sees the modules that the passes before it left, and may take in some of
them with the one that it replaces. What each statement needs, for its module to be replaced alone, depends on what
stands before it and behind it. -/

namespace Rehome.Statement

namespace Clause

variable {current : Text} {c d e : Clause} {cs u v pre post : List Clause} {s : Shape} {g : Clause → Clause}

/-- Reading a module with this statement in it neither skips a segment of it nor takes one off. -/
def Tidy (c : Clause) : Prop := Path.Tidy c.opening.text ∧ Path.Tidy c.module

instance (c : Clause) : Decidable c.Tidy := inferInstanceAs (Decidable (_ ∧ _))

/-- The passes get to the module of `c`, with `pre` in front of it and `post` behind, and replace it alone. -/
structure Reached (current : Text) (pre : List Clause) (c : Clause) (post : List Clause) : Prop where
  /-- No bare import takes another one in. -/
  bare : c.IsBare → ∀ d ∈ pre, d.IsBare → ∀ e ∈ c :: post, e.quote ≠ d.quote
  /-- Bindings go on up to the last `from`. -/
  bound : ¬ c.IsBare → ∀ d ∈ post, d.IsBare
  /-- A keyword of either kind makes for two passes. -/
  once : ¬ c.IsBare → ∀ d ∈ pre, d.opening.shape.keyword ≠ c.opening.shape.keyword →
    Reference.isRelative (Reference.resolve current c.module) = false
  /-- What the module takes in stays. -/
  taken : ∀ u e v, post = u ++ e :: v → e.quote = c.quote → Reference.EndsInName c.module ∧
    ∀ d ∈ u ++ [e], d.Tidy ∧ (d.mapModule (Reference.resolve current)).Tidy

theorem tidy_quote {q : Char} (hq : IsQuote q) : Path.Tidy [q] := by
  rcases hq with rfl | rfl <;> exact .of_not_mem (by decide) (by decide)

theorem tidy_separator : Path.Tidy "; ".toList := .of_not_mem (by decide) (by decide)

theorem tidy_after (hquote : ∀ c ∈ cs, IsQuote c.quote) (htidy : ∀ c ∈ cs, c.Tidy) : Path.Tidy (after cs) := by
  induction cs with
  | nil => exact .of_not_mem (by simp [after]) (by simp [after])
  | cons c cs ih =>
    have hc := tidy_quote (hquote c List.mem_cons_self)
    obtain ⟨hopening, hmodule⟩ := htidy c List.mem_cons_self
    have htext : Path.Tidy c.text := hopening.append (hc.append (hmodule.append hc))
    have hrest := ih (fun d hd => hquote d (List.mem_cons_of_mem c hd)) fun d hd => htidy d (List.mem_cons_of_mem c hd)
    exact (tidy_separator.append htext).append hrest

theorem tidy_through {q : Char} (hq : IsQuote q) (hquote : ∀ c ∈ u ++ [e], IsQuote c.quote)
    (htidy : ∀ c ∈ u ++ [e], c.Tidy) : Path.Tidy (through q u e) := by
  rw [List.forall_mem_append, List.forall_mem_singleton] at hquote htidy
  obtain ⟨hopening, hmodule⟩ := htidy.2
  have hclosed : Path.Tidy (e.quote :: e.module) := (tidy_quote hquote.2).append hmodule
  exact (tidy_quote hq).append
    (((tidy_after hquote.1 htidy.1).append (tidy_separator.append hopening)).append hclosed)

/-- Some statements have their modules resolved, and the others are as they were. -/
def Partly (current : Text) (g : Clause → Clause) : Prop :=
  ∀ c, g c = c ∨ g c = c.mapModule (Reference.resolve current)

namespace Partly

theorem opening (hg : Partly current g) (c : Clause) : (g c).opening = c.opening := by
  rcases hg c with h | h
  · rw [h]
  · rw [h, mapModule]

theorem quote (hg : Partly current g) (c : Clause) : (g c).quote = c.quote := by
  rcases hg c with h | h
  · rw [h]
  · rw [h, mapModule]

theorem isBare_iff (hg : Partly current g) (c : Clause) : (g c).IsBare ↔ c.IsBare := by
  rw [IsBare, hg.opening, IsBare]

theorem meets_iff (hg : Partly current g) : Meets s (cs.map g) ↔ Meets s cs := by
  induction cs with
  | nil => exact Iff.rfl
  | cons c cs ih =>
    have hbound : (∃ d ∈ (c :: cs).map g, ¬ d.IsBare) ↔ ∃ d ∈ c :: cs, ¬ d.IsBare := by
      simp only [List.mem_map, exists_exists_and_eq_and, hg.isBare_iff]
    rw [List.map_cons, Meets, Meets, ih, hg.opening, ← List.map_cons, hbound]

end Partly

theorem meets_of_mem (hmem : c ∈ cs) (hc : ¬ c.IsBare) : Meets c.opening.shape cs := by
  induction cs with
  | nil => cases hmem
  | cons d cs ih =>
    rcases List.mem_cons.1 hmem with rfl | hmem
    · exact .inl ⟨rfl, c, List.mem_cons_self, hc⟩
    · exact .inr (ih hmem)

theorem exists_keyword_before (h : Meets s (pre ++ c :: post)) (hc : c.opening.shape.keyword ≠ s.keyword)
    (hpost : ∀ d ∈ post, d.IsBare) : ∃ d ∈ pre, d.opening.shape.keyword = s.keyword := by
  induction pre with
  | nil =>
    rcases h with ⟨hsame, -⟩ | h
    · exact absurd hsame hc
    · exact absurd h (not_meets_of_bare hpost)
  | cons d pre ih =>
    rcases h with ⟨hsame, -⟩ | h
    · exact ⟨d, List.mem_cons_self, hsame⟩
    · obtain ⟨d', hd', hsame⟩ := ih h
      exact ⟨d', List.mem_cons_of_mem d hd', hsame⟩

theorem exists_of_map_eq {c' : Clause} {pre' post' : List Clause} (h : cs.map g = pre' ++ c' :: post') :
    ∃ pre c post, cs = pre ++ c :: post ∧ pre.map g = pre' ∧ g c = c' ∧ post.map g = post' := by
  obtain ⟨pre, ds, rfl, hpre, hds⟩ := List.map_eq_append_iff.1 h
  obtain ⟨c, post, rfl, hc, hpost⟩ := List.map_eq_cons_iff.1 hds
  exact ⟨pre, c, post, rfl, hpre, hc, hpost⟩

theorem map_snoc (g : Clause → Clause) (u : List Clause) (e : Clause) : u.map g ++ [g e] = (u ++ [e]).map g := by
  rw [List.map_append, List.map_singleton]

/-- What every relative module on the line needs to be replaced alone. -/
def AllReached (current : Text) (cs : List Clause) : Prop :=
  ∀ pre c post, cs = pre ++ c :: post → Reference.isRelative c.module = true → Reached current pre c post

/-- The statements can stand on a line, as they are and with their modules resolved, and the passes get to the
modules that ask for it. -/
structure Ready (current : Text) (cs : List Clause) : Prop where
  proper : ∀ c ∈ cs, c.Proper
  resolved : ∀ c ∈ cs, (c.mapModule (Reference.resolve current)).Proper
  reached : AllReached current cs

/-- What a pass does to the modules behind bindings. -/
def Does (current : Text) (s : Shape) (cs : List Clause) (f : Text → Text) : Prop :=
  Meets s cs ∧ f = Reference.resolve current ∨ ¬ Meets s cs ∧ f = id

theorem Does.partly {f : Text → Text} (hf : Does current s cs f) : Partly current (mapModule f) := fun c => by
  rcases hf with ⟨-, rfl⟩ | ⟨-, rfl⟩
  · exact .inr rfl
  · exact .inl rfl

theorem mapBound_partly {f : Text → Text} (hf : Partly current (mapModule f)) : Partly current (mapBound f) := by
  intro c
  rw [mapBound]
  split
  · exact .inl rfl
  · exact hf c

theorem mapBare_mapBound (f f' : Text → Text) (c : Clause) :
    mapBare f (mapBound f' c) = c.mapModule (if c.IsBare then f else f') := by
  by_cases hc : c.IsBare
  · rw [mapBound, if_pos hc, mapBare, if_pos hc, if_pos hc]
  · rw [mapBound, if_neg hc, if_neg hc]
    exact if_neg hc

namespace Ready

variable {f : Text → Text}

theorem proper_map (h : Ready current cs) (hg : Partly current g) : ∀ c ∈ cs.map g, c.Proper := by
  rw [List.forall_mem_map]
  intro c hmem
  rcases hg c with hc | hc <;> rw [hc]
  · exact h.proper c hmem
  · exact h.resolved c hmem

theorem not_isRelative_of_bound (h : Ready current (pre ++ c :: post)) (hc : ¬ c.IsBare)
    (hpost : ∃ d ∈ post, ¬ d.IsBare) : Reference.isRelative c.module = false := by
  obtain ⟨d, hd, hbare⟩ := hpost
  by_contra hrel
  exact hbare ((h.reached pre c post rfl (by simpa using hrel)).bound hc d hd)

theorem not_isRelative_of_taken (h : Ready current (pre ++ c :: (u ++ e :: v))) (hc : c.IsBare)
    (he : e.quote = c.quote) (hd : d ∈ u ++ [e]) (hbare : d.IsBare) : Reference.isRelative d.module = false := by
  by_contra hrel
  obtain ⟨u₁, u₂, hsplit⟩ := List.append_of_mem hd
  have hcs : pre ++ c :: (u ++ e :: v) = (pre ++ c :: u₁) ++ d :: (u₂ ++ v) := by
    rw [List.append_cons u, hsplit]
    simp
  have hmem : e ∈ d :: u₂ ++ v := by
    refine List.mem_append_left v ?_
    have hlast : (u ++ [e]).getLast? = (u₁ ++ d :: u₂).getLast? := by rw [hsplit]
    rw [List.getLast?_concat, List.getLast?_append_of_ne_nil _ (List.cons_ne_nil d u₂)] at hlast
    exact List.mem_of_getLast? hlast.symm
  exact (h.reached _ d _ hcs (by simpa using hrel)).bare hbare c (by simp) hc e hmem he

/-- What a module takes in behind itself stays, whichever modules in there were resolved. -/
theorem resolve_through (h : Ready current (pre ++ c :: (u ++ e :: v))) (he : e.quote = c.quote)
    (hg : Partly current g) (hmodule : (g c).module = c.module ∨ Reference.isRelative (g c).module = false) :
    Reference.resolve current ((g c).module ++ through c.quote (u.map g) (g e)) =
      Reference.resolve current (g c).module ++ through c.quote (u.map g) (g e) := by
  have hproper := h.proper_map hg
  by_cases hrel : Reference.isRelative (g c).module = true
  · have hsame : (g c).module = c.module := hmodule.resolve_right (by simp [hrel])
    rw [hsame] at hrel ⊢
    obtain ⟨hend, htidy⟩ := (h.reached pre c _ rfl hrel).taken u e v rfl he
    have hquote : ∀ d ∈ u.map g ++ [g e], IsQuote d.quote := fun d hd => (hproper d (by
      rw [List.append_cons u, ← List.cons_append, ← List.append_assoc, List.map_append, List.map_append, List.map_cons]
      rw [map_snoc] at hd
      exact List.mem_append_left _ (List.mem_append_right _ (List.mem_cons_of_mem _ hd)))).quote
    have htaken : ∀ d ∈ u.map g ++ [g e], d.Tidy := by
      rw [map_snoc, List.forall_mem_map]
      intro d hd
      rcases hg d with hd' | hd' <;> rw [hd']
      · exact (htidy d hd).1
      · exact (htidy d hd).2
    exact Reference.resolve_append hrel hend (tidy_through (h.proper c (by simp)).quote hquote htaken)
  · have hfixed : Reference.isRelative (g c).module = false := by simpa using hrel
    have hne : (g c).module ≠ [] := (hproper (g c) (by simp)).module_ne_nil
    rw [resolve_eq_self hfixed, resolve_eq_self ((Reference.isRelative_append hne _).trans hfixed)]

/-- Two passes for bindings leave no module relative behind them. -/
theorem isRelative_resolve (h : Ready current cs) (himport : Meets .importFrom cs) (hexport : Meets .exportFrom cs)
    (hmem : c ∈ cs) (hc : ¬ c.IsBare) : Reference.isRelative (Reference.resolve current c.module) = false := by
  by_cases hrel : Reference.isRelative c.module = true
  · obtain ⟨pre, post, rfl⟩ := List.append_of_mem hmem
    have hreached := h.reached pre c post rfl hrel
    have hother {s : Shape} (hs : c.opening.shape.keyword ≠ s.keyword) (hmeets : Meets s (pre ++ c :: post)) :
        Reference.isRelative (Reference.resolve current c.module) = false := by
      obtain ⟨d, hd, hsame⟩ := exists_keyword_before hmeets hs (hreached.bound hc)
      exact hreached.once hc d hd (hsame ▸ hs.symm)
    rcases c.opening.shape.eq_importBare_or_binding with hs | ⟨_ | _, hs⟩
    · exact absurd hs hc
    · exact hother (s := .exportFrom) (by rw [hs]; decide) hexport
    · exact hother (s := .importFrom) (by rw [hs]; decide) himport
  · have hfixed : Reference.isRelative c.module = false := by simpa using hrel
    rwa [resolve_eq_self hfixed]

theorem mapModules_bare (h : Ready current cs) (hg : Partly current g) (hbare : ∀ c : Clause, c.IsBare → g c = c) :
    Shape.importBare.mapModules (Reference.resolve current) (joined (cs.map g)) =
      joined ((cs.map g).map (mapBare (Reference.resolve current))) := by
  refine Clause.mapModules_bare (h.proper_map hg) fun pre' c' u' e' v' hsplit hbare' he => ?_
  obtain ⟨pre, c, post, rfl, -, rfl, hpost⟩ := exists_of_map_eq hsplit
  obtain ⟨u, e, v, rfl, rfl, rfl, -⟩ := exists_of_map_eq hpost
  rw [hg.quote, hg.quote] at he
  rw [hg.isBare_iff] at hbare'
  rw [hg.quote]
  refine ⟨h.resolve_through he hg (.inl (by rw [hbare c hbare'])), ?_⟩
  rw [map_snoc, List.forall_mem_map]
  intro d hd hd'
  rw [hg.isBare_iff] at hd'
  rw [hbare d hd']
  exact resolve_eq_self (h.not_isRelative_of_taken hbare' he hd hd')

/-- One pass for statements with bindings, on a line where some modules were resolved before. -/
theorem mapModules_binding (h : Ready current cs) (hg : Partly current g) {e : Bool} (hmeets : Meets (.binding e) cs)
    (hmodule : ∀ c ∈ cs, ¬ c.IsBare → (g c).module = c.module ∨ Reference.isRelative (g c).module = false) :
    (Shape.binding e).mapModules (Reference.resolve current) (joined (cs.map g)) =
      joined ((cs.map g).map (mapBound (Reference.resolve current))) := by
  refine Clause.mapModules_binding (h.proper_map hg) (hg.meets_iff.2 hmeets) ?_ ?_
  · intro pre' c' post' hsplit hbare hpost
    obtain ⟨pre, c, post, rfl, -, rfl, rfl⟩ := exists_of_map_eq hsplit
    rw [hg.isBare_iff] at hbare
    have hfixed := h.not_isRelative_of_bound hbare (by simpa [hg.isBare_iff] using hpost)
    rcases hg c with hc | hc <;> rw [hc]
    · exact resolve_eq_self hfixed
    · rw [mapModule, resolve_eq_self hfixed, resolve_eq_self hfixed]
  · intro pre' c' u' e' v' hsplit hbare he
    obtain ⟨pre, c, post, rfl, -, rfl, hpost⟩ := exists_of_map_eq hsplit
    obtain ⟨u, e, v, rfl, rfl, rfl, -⟩ := exists_of_map_eq hpost
    rw [hg.quote, hg.quote] at he
    rw [hg.isBare_iff] at hbare
    rw [hg.quote]
    exact h.resolve_through he hg (hmodule c (by simp) hbare)

theorem exists_does (h : Ready current cs) (hg : Partly current g) (e : Bool)
    (hmodule : Meets (.binding e) cs →
      ∀ c ∈ cs, ¬ c.IsBare → (g c).module = c.module ∨ Reference.isRelative (g c).module = false) :
    ∃ f, Does current (.binding e) cs f ∧
      (Shape.binding e).mapModules (Reference.resolve current) (joined (cs.map g)) =
        joined (cs.map fun c => mapBound f (g c)) := by
  by_cases hmeets : Meets (.binding e) cs
  · refine ⟨_, .inl ⟨hmeets, rfl⟩, ?_⟩
    rw [h.mapModules_binding hg hmeets (hmodule hmeets), List.map_map]
    rfl
  · refine ⟨_, .inr ⟨hmeets, rfl⟩, ?_⟩
    rw [mapModules_binding_of_not_meets (h.proper_map hg) (fun hm => hmeets (hg.meets_iff.1 hm))]
    exact congrArg joined (List.map_congr_left fun c _ => (mapBound_eq_self fun _ => rfl).symm)

/-- Between them the passes for bindings resolve a module there once, or once more without effect. -/
theorem does_twice (h : Ready current cs) {f₁ f₃ : Text → Text} (hf₁ : Does current .importFrom cs f₁)
    (hf₃ : Does current .exportFrom cs f₃) (hmem : c ∈ cs) (hc : ¬ c.IsBare) :
    f₃ (f₁ c.module) = Reference.resolve current c.module := by
  rcases hf₁ with ⟨himport, rfl⟩ | ⟨himport, rfl⟩ <;> rcases hf₃ with ⟨hexport, rfl⟩ | ⟨hexport, rfl⟩
  · exact resolve_eq_self (h.isRelative_resolve himport hexport hmem hc)
  · rfl
  · rfl
  · rcases c.opening.shape.eq_importBare_or_binding with hs | ⟨_ | _, hs⟩
    · exact absurd hs hc
    · exact absurd (hs ▸ meets_of_mem hmem hc : Meets (.binding false) cs) himport
    · exact absurd (hs ▸ meets_of_mem hmem hc : Meets (.binding true) cs) hexport

end Ready

end Clause

open Clause in
/-- On a line of statements one after another exactly the modules are resolved, each of them once, if every relative
module is reached and resolving brings in no words of a statement. -/
theorem resolveAll_sequence {current : Text} (hc : Unquoted current) {cs : List Clause} (hcs : ∀ c ∈ cs, c.Proper)
    (hw : ∀ c ∈ cs, Wordless (Reference.resolve current c.module)) (h : AllReached current cs) :
    resolveAll current (joined cs) = joined (cs.map (mapModule (Reference.resolve current))) := by
  have hready : Ready current cs :=
    { proper := hcs
      resolved := fun c hmem =>
        { hcs c hmem with
          module_ne_nil := resolve_ne_nil current (hcs c hmem).module_ne_nil
          module := unquoted_resolve hc (hcs c hmem).module
          wordless := hw c hmem }
      reached := h }
  obtain ⟨f₁, hf₁, hpass₁⟩ := hready.exists_does (fun c => .inl rfl : Partly current id) false fun _ c _ _ => .inl rfl
  have hpass₂ := hready.mapModules_bare (mapBound_partly hf₁.partly) fun c hbare => if_pos hbare
  -- the second pass finishes the bare imports, and the other two share the statements with bindings
  let g (c : Clause) : Clause := mapBare (Reference.resolve current) (mapBound f₁ c)
  have hform (c : Clause) : g c = c.mapModule (if c.IsBare then Reference.resolve current else f₁) :=
    mapBare_mapBound _ _ c
  have hg : Partly current g := fun c => by
    rw [hform]
    split
    · exact .inr rfl
    · exact hf₁.partly c
  obtain ⟨f₃, hf₃, hpass₃⟩ := hready.exists_does hg true fun hexport c hmem hbare => by
    rw [hform, if_neg hbare]
    rcases hf₁ with ⟨himport, rfl⟩ | ⟨-, rfl⟩
    · exact .inr (hready.isRelative_resolve himport hexport hmem hbare)
    · exact .inl rfl
  have hall : ∀ c ∈ cs, mapBound f₃ (g c) = c.mapModule (Reference.resolve current) := fun c hmem => by
    rw [hform]
    by_cases hbare : c.IsBare
    · rw [if_pos hbare]
      exact if_pos hbare
    · rw [if_neg hbare, mapBound, if_neg (show ¬ (c.mapModule f₁).IsBare from hbare), mapModule, mapModule, mapModule,
        hready.does_twice hf₁ hf₃ hmem hbare]
  rw [List.map_id] at hpass₁
  calc resolveAll current (joined cs)
    _ = Shape.exportFrom.mapModules (Reference.resolve current) (Shape.importBare.mapModules (Reference.resolve current)
          (joined (cs.map (mapBound f₁)))) :=
      congrArg (fun t => Shape.exportFrom.mapModules _ (Shape.importBare.mapModules _ t)) hpass₁
    _ = Shape.exportFrom.mapModules (Reference.resolve current) (joined (cs.map g)) := by
      rw [hpass₂, List.map_map]
      rfl
    _ = joined (cs.map fun c => mapBound f₃ (g c)) := hpass₃
    _ = joined (cs.map (mapModule (Reference.resolve current))) := congrArg joined (List.map_congr_left hall)

/-- A module is taken in by the one before it, and an export is met by the pass for imports as well. -/
theorem resolveAll_sequence_mixed :
    resolveAll "ns/a/x".toList "import \"../b\"; export * from './c'; import './d'".toList =
      "import \"ns/b\"; export * from 'ns/a/c'; import 'ns/a/d'".toList := by
  let c₁ : Clause := ⟨.bare ' ', '"', "../b".toList⟩
  let c₂ : Clause := ⟨.binding true ' ' ['*'] ' ' ' ', '\'', "./c".toList⟩
  let c₃ : Clause := ⟨.bare ' ', '\'', "./d".toList⟩
  have hkeyword {t : Text} (hi : 'i' ∉ t) (he : 'e' ∉ t) (s : Shape) (b : Char) (_ : Text.isBlank b) :
      ¬ s.keyword ++ [b] <:+: t := fun h => by
    obtain ⟨k, ks, hk, hk', -⟩ := s.keyword_eq_cons
    have hmem : k ∈ t := h.subset (by simp [hk])
    rcases hk' with rfl | rfl
    · exact hi hmem
    · exact he hmem
  have hwordless {t : Text} (hi : 'i' ∉ t) (he : 'e' ∉ t) (hf : 'f' ∉ t) : Wordless t :=
    ⟨⟨hkeyword hi he .importBare, fun b c _ _ h => hf (h.subset (by simp))⟩, hkeyword hi he⟩
  have h₁ : c₁.Proper := ⟨show IsGap ' ' by decide, hkeyword (by decide) (by decide), .inr rfl, by decide, by decide,
    hwordless (by decide) (by decide) (by decide)⟩
  have hbindings : c₂.opening.Proper := ⟨by decide, by decide, by decide, by decide, by decide,
    hkeyword (by decide) (by decide)⟩
  have h₂ : c₂.Proper := ⟨hbindings, hkeyword (by decide) (by decide), .inl rfl, by decide, by decide,
    hwordless (by decide) (by decide) (by decide)⟩
  have h₃ : c₃.Proper := ⟨show IsGap ' ' by decide, hkeyword (by decide) (by decide), .inl rfl, by decide, by decide,
    hwordless (by decide) (by decide) (by decide)⟩
  have hproper : ∀ c ∈ [c₁, c₂, c₃], c.Proper := by simp [h₁, h₂, h₃]
  have hreached : Clause.AllReached "ns/a/x".toList [c₁, c₂, c₃] := by
    rintro (_ | ⟨p₁, _ | ⟨p₂, _ | ⟨p₃, pre⟩⟩⟩) c post hsplit -
    · obtain ⟨rfl, rfl⟩ := List.cons.inj hsplit
      refine ⟨fun _ _ hd => absurd hd (by simp), fun h => absurd rfl h, fun h => absurd rfl h,
        fun u e v htaken he => ?_⟩
      have hquote : ∀ e ∈ [c₂, c₃], e.quote ≠ c₁.quote := by decide
      exact absurd he (hquote e (by rw [htaken]; simp))
    · simp only [List.cons_append, List.nil_append, List.cons.injEq] at hsplit
      obtain ⟨rfl, rfl, rfl⟩ := hsplit
      refine ⟨fun h => absurd h (by decide), fun _ => by decide, fun _ _ _ _ => by decide, fun u e v htaken _ => ?_⟩
      obtain ⟨rfl, rfl, rfl⟩ : u = [] ∧ e = c₃ ∧ v = [] := by
        cases u <;> simp_all
      exact ⟨⟨[['.']], ['c'], by decide, by decide⟩, by decide⟩
    · simp only [List.cons_append, List.nil_append, List.cons.injEq] at hsplit
      obtain ⟨rfl, rfl, rfl, rfl⟩ := hsplit
      exact ⟨fun _ => by decide, fun h => absurd rfl h, fun h => absurd rfl h, fun u e v htaken => by simp at htaken⟩
    · simp at hsplit
  have hcurrent : Unquoted "ns/a/x".toList := by decide
  have hresolved : ∀ c ∈ [c₁, c₂, c₃], Wordless (Reference.resolve "ns/a/x".toList c.module) := fun c hc =>
    Wordless.resolve (hwordless (by decide) (by decide) (by decide)) (hproper c hc).wordless
  exact (resolveAll_sequence hcurrent hproper hresolved hreached).trans (by decide)

theorem resolveAll_swallows_statement :
    resolveAll "ns/x".toList "import './a'; import './b'".toList ≠ "import 'ns/a'; import 'ns/b'".toList := by
  decide +kernel

end Rehome.Statement
