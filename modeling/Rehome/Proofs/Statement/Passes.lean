import Rehome.Proofs.Statement.Clause

/-! Passes over a line of several statements. A module is read up to the last quote of its kind and bindings up to the
last `from`, so a pass may take in statements with the one that it finds. Where what was taken in comes back as it
was, the line is resolved as if its statements stood alone. -/

namespace Rehome.Statement

theorem Opening.length_text_bare {o : Opening} (h : o.shape = .importBare) : o.text.length = 7 := by
  cases o with
  | bare gap => rfl
  | binding e gap u b c => cases e <;> cases h

namespace Clause

variable {c d : Clause} {cs pre post w v : List Clause} {x : Text} {s : Shape} {e : Bool} {f : Text → Text}

/-! ### Bare imports -/

theorem find?_bare (hcs : ∀ d ∈ c :: cs, d.Proper) (hc : c.IsBare) (h : Span c cs w v x) :
    Shape.importBare.find? (joined (c :: cs)) =
      some ⟨c.opening.text ++ [c.quote], c.module ++ x, c.quote, after v⟩ := by
  have hall : ∀ d ∈ [] ++ c :: cs, d.Proper := hcs
  have hfound := h.find? hall (hcs c List.mem_cons_self).wellFormed rfl fun o' _ _ _ hs _ => by
    rw [Opening.length_text_bare (hs.trans hc), Opening.length_text_bare hc]
  rwa [hc] at hfound

theorem find?_bare_of_not (hcs : ∀ d ∈ c :: cs, d.Proper) (hc : ¬ c.IsBare) :
    Shape.importBare.find? (joined (c :: cs)) = none := by
  refine find?_eq_none_iff.2 fun o q m r hs hr => ?_
  obtain ⟨pre, d, post, hsplit, -, ho, -, hbare⟩ := exists_of_reads hcs hr
  have hd : d.IsBare := hbare.2 hs
  cases pre with
  | nil =>
    obtain ⟨rfl, -⟩ := List.cons.inj hsplit
    exact hc hd
  | cons c' pre =>
    have hlength := congrArg List.length ho
    rw [Opening.length_text_bare hs, List.length_append, Opening.length_text_bare hd, upto_cons] at hlength
    simp [text] at hlength

/-- The statement with its module replaced, if it is a bare import. -/
def mapBare (f : Text → Text) (c : Clause) : Clause := if c.IsBare then c.mapModule f else c

theorem mapBare_eq_self (h : c.IsBare → f c.module = c.module) : mapBare f c = c := by
  rw [mapBare]
  split
  · next hc => rw [mapModule, h hc]
  · rfl

/-- A pass over bare imports replaces their modules, if what a module takes in behind itself stays and no bare import
in there asks to be changed. -/
theorem mapModules_bare (hcs : ∀ c ∈ cs, c.Proper)
    (hspan : ∀ pre c u e v, cs = pre ++ c :: (u ++ e :: v) → c.IsBare → e.quote = c.quote →
      f (c.module ++ through c.quote u e) = f c.module ++ through c.quote u e ∧
        ∀ d ∈ u ++ [e], d.IsBare → f d.module = d.module) :
    Shape.importBare.mapModules f (joined cs) = joined (cs.map (mapBare f)) := by
  induction hn : cs.length using Nat.strong_induction_on generalizing cs with
  | _ n ih =>
    subst hn
    cases cs with
    | nil => exact Shape.mapModules_nil
    | cons c cs =>
      have hrest : ∀ d ∈ cs, d.Proper := fun d hd => hcs d (List.mem_cons_of_mem c hd)
      have hc := hcs c List.mem_cons_self
      by_cases hbare : c.IsBare
      · obtain ⟨w, v, x, h⟩ := exists_span hc.quote hrest
        have hshorter : v.length < (c :: cs).length := by
          rw [h.split, List.length_cons, List.length_append]
          omega
        have hv := ih v.length hshorter (fun d hd => hrest d (by simp [h.split, hd]))
          (fun pre d u e v' hsplit => hspan (c :: w ++ pre) d u e v' (by rw [h.split, hsplit]; simp)) rfl
        -- what the module takes in stays, with the bare imports there
        have htaken : f (c.module ++ x) = f c.module ++ x ∧ w.map (mapBare f) = w := by
          rcases h.taken with ⟨rfl, rfl⟩ | ⟨u, e, rfl, he, rfl⟩
          · simp
          · obtain ⟨hmodule, hfix⟩ := hspan [] c u e v (by rw [h.split]; simp) hbare he
            exact ⟨hmodule, (List.map_congr_left fun d hd => mapBare_eq_self (hfix d hd)).trans (List.map_id _)⟩
        rw [Shape.mapModules_of_find? (find?_bare hcs hbare h), mapModules_after hv, htaken.1, h.text_mapModule,
          h.split, List.map_cons, List.map_append, htaken.2, mapBare, if_pos hbare, joined_cons]
      · have hnone := find?_bare_of_not hcs hbare
        rw [joined_cons] at hnone
        have htail := ih cs.length (Nat.lt_succ_self _) hrest
          (fun pre d u e v hsplit => hspan (c :: pre) d u e v (by rw [hsplit, List.cons_append])) rfl
        rw [joined_cons, hc.mapModules_skip hnone, mapModules_after htail, List.map_cons, mapBare, if_neg hbare,
          joined_cons]

/-! ### Statements with bindings -/

theorem newline_not_mem_upto (hcs : ∀ c ∈ cs, c.Proper) : '\n' ∉ upto cs := by
  simp only [upto, List.mem_flatMap, List.mem_append, not_exists, not_and, not_or]
  exact fun c hc => ⟨(hcs c hc).newline_not_mem, by decide⟩

/-- The words from the keyword of one statement up to the opening quote of another, which has bindings. -/
theorem exists_opening (hcs : ∀ d ∈ pre ++ c :: post, d.Proper) (hc : ¬ c.IsBare)
    (hkeyword : ∀ d ds, pre ++ c :: post = d :: ds → d.opening.shape.keyword = (Shape.binding e).keyword) :
    ∃ o : Opening, o.WellFormed ∧ o.shape = .binding e ∧ o.text = upto pre ++ c.opening.text := by
  have hproper := hcs c (by simp)
  obtain ⟨⟨gap⟩ | ⟨e', gap', u, before, after⟩, q, m⟩ := c
  · exact absurd rfl hc
  obtain ⟨hgap', -, -, hbefore, hafter⟩ := hproper.wellFormed
  cases pre with
  | nil =>
    obtain rfl := Shape.binding_injective (hkeyword _ _ rfl)
    exact ⟨_, hproper.wellFormed, rfl, rfl⟩
  | cons d pre =>
    obtain ⟨gap, r, hgap, hd⟩ := (hcs d (by simp)).wellFormed.exists_keyword
    rw [hkeyword d _ rfl] at hd
    let bindings : Text := r ++ d.quote :: (d.module ++ [d.quote]) ++ "; ".toList ++ upto pre ++
      (Shape.binding e').keyword ++ gap' :: u
    have htext : (Opening.binding e gap bindings before after).text =
        upto (d :: pre) ++ (Opening.binding e' gap' u before after).text := by
      rw [Opening.text_binding, Opening.text_binding, upto_cons, text, hd]
      simp [bindings]
    have hline : '\n' ∉ upto (d :: pre) ++ (Opening.binding e' gap' u before after).text := by
      rw [List.mem_append, not_or]
      exact ⟨newline_not_mem_upto fun d' hd' => hcs d' (List.mem_append_left _ hd'),
        fun hn => (hproper.opening.unquoted _ hn).1 rfl⟩
    rw [← htext, Opening.text_binding] at hline
    refine ⟨.binding e gap bindings before after, ⟨hgap, ?_, fun hn => hline ?_, hbefore, hafter⟩, rfl, htext⟩
    · simp [bindings]
    · exact List.mem_append_left _ (List.mem_append_right _ (List.mem_cons_of_mem _ hn))

/-- The last statement with bindings is the one whose module is found, from whichever statement the keyword is. -/
theorem find?_binding (hcs : ∀ d ∈ pre ++ c :: post, d.Proper) (hc : ¬ c.IsBare) (hpost : ∀ d ∈ post, d.IsBare)
    (hkeyword : ∀ d ds, pre ++ c :: post = d :: ds → d.opening.shape.keyword = (Shape.binding e).keyword)
    (h : Span c post w v x) :
    (Shape.binding e).find? (joined (pre ++ c :: post)) =
      some ⟨upto pre ++ c.opening.text ++ [c.quote], c.module ++ x, c.quote, after v⟩ := by
  obtain ⟨o, ho, hs, htext⟩ := exists_opening hcs hc hkeyword
  rw [← hs]
  refine h.find? hcs ho htext fun o' q' m' r' hs' hr => ?_
  obtain ⟨pre', c', post', hsplit, -, htext', -, hbare⟩ := exists_of_reads hcs hr
  have hc' : ¬ c'.IsBare := by
    rw [hbare, hs', hs]
    cases e <;> exact fun h => Shape.noConfusion h
  rw [htext, htext']
  -- a later statement would be bare, and what stands before an earlier one is shorter
  rcases List.append_eq_append_iff.1 hsplit with ⟨z, rfl, hz⟩ | ⟨z, rfl, hz⟩
  · cases z with
    | nil =>
      obtain ⟨rfl, -⟩ := List.cons.inj hz
      rw [List.append_nil]
    | cons d z =>
      obtain ⟨-, rfl⟩ := List.cons.inj hz
      exact absurd (hpost c' (by simp)) hc'
  · cases z with
    | nil =>
      obtain ⟨rfl, -⟩ := List.cons.inj hz
      rw [List.append_nil]
    | cons d z =>
      obtain ⟨rfl, -⟩ := List.cons.inj hz
      simp only [upto, List.flatMap_append, List.flatMap_cons, text, List.length_append]
      omega

theorem find?_of_keyword_ne (hc : c.Proper) (hkeyword : c.opening.shape.keyword ≠ s.keyword) (t : Text) :
    s.find? (c.text ++ t) = none := by
  refine find?_eq_none_iff.2 fun o q m r hs hr => ?_
  obtain ⟨b, y, -, ho⟩ := hr.opening.exists_keyword
  obtain ⟨b', y', -, hc'⟩ := hc.wellFormed.exists_keyword
  have hsource := hr.source
  rw [text, hc', ho, hs, List.append_assoc, List.append_assoc, List.append_assoc] at hsource
  exact hkeyword (List.append_inj hsource (by rw [Shape.length_keyword, Shape.length_keyword])).1

theorem find?_binding_of_bare (hcs : ∀ c ∈ cs, c.Proper) (hbare : ∀ c ∈ cs, c.IsBare) :
    (Shape.binding e).find? (joined cs) = none := by
  refine find?_eq_none_iff.2 fun o q m r hs hr => ?_
  obtain ⟨pre, c, post, rfl, -, -, -, hiff⟩ := exists_of_reads hcs hr
  have hs' := hiff.1 (hbare c (by simp))
  rw [hs] at hs'
  cases e <;> cases hs'

/-- A statement with the keyword stands somewhere on the line, and at it or behind it one with bindings. -/
def Meets (s : Shape) : List Clause → Prop
  | [] => False
  | c :: cs => (c.opening.shape.keyword = s.keyword ∧ ∃ d ∈ c :: cs, ¬ d.IsBare) ∨ Meets s cs

theorem Meets.exists_bound (h : Meets s cs) : ∃ d ∈ cs, ¬ d.IsBare := by
  induction cs with
  | nil => exact h.elim
  | cons c cs ih =>
    rcases h with ⟨-, h⟩ | h
    · exact h
    · obtain ⟨d, hd, hbare⟩ := ih h
      exact ⟨d, List.mem_cons_of_mem c hd, hbare⟩

theorem exists_last_bound (h : ∃ d ∈ cs, ¬ d.IsBare) :
    ∃ pre c post, cs = pre ++ c :: post ∧ ¬ c.IsBare ∧ ∀ d ∈ post, d.IsBare := by
  induction cs with
  | nil => simp at h
  | cons d cs ih =>
    by_cases hcs : ∃ d ∈ cs, ¬ d.IsBare
    · obtain ⟨pre, c, post, rfl, hc, hpost⟩ := ih hcs
      exact ⟨d :: pre, c, post, rfl, hc, hpost⟩
    · have hbare : ∀ d ∈ cs, d.IsBare := by simpa using hcs
      obtain ⟨d', hd', hnot⟩ := h
      rcases List.mem_cons.1 hd' with rfl | hd'
      · exact ⟨[], d', cs, rfl, hnot, hbare⟩
      · exact absurd (hbare d' hd') hnot

/-- The statement with its module replaced, if it has bindings. -/
def mapBound (f : Text → Text) (c : Clause) : Clause := if c.IsBare then c else c.mapModule f

theorem mapBound_eq_self (h : ¬ c.IsBare → f c.module = c.module) : mapBound f c = c := by
  rw [mapBound]
  split
  · rfl
  · next hc => rw [mapModule, h hc]

theorem mapModules_binding_of_not_meets (hcs : ∀ c ∈ cs, c.Proper) (h : ¬ Meets (.binding e) cs) :
    (Shape.binding e).mapModules f (joined cs) = joined cs := by
  induction cs with
  | nil => exact Shape.mapModules_nil
  | cons c cs ih =>
    rw [Meets, not_or, not_and] at h
    have hc := hcs c List.mem_cons_self
    have hnone : (Shape.binding e).find? (c.text ++ after cs) = none := by
      by_cases hkeyword : c.opening.shape.keyword = (Shape.binding e).keyword
      · have hbare : ∀ d ∈ c :: cs, d.IsBare := by simpa using h.1 hkeyword
        exact joined_cons c cs ▸ find?_binding_of_bare hcs hbare
      · exact find?_of_keyword_ne hc hkeyword _
    have htail := ih (fun d hd => hcs d (List.mem_cons_of_mem c hd)) h.2
    have hafter := mapModules_after (g := id) (by rw [List.map_id]; exact htail)
    rw [joined_cons, hc.mapModules_skip hnone, hafter, List.map_id]

theorem not_meets_of_bare (hbare : ∀ c ∈ cs, c.IsBare) : ¬ Meets s cs := fun h => by
  obtain ⟨d, hd, hnot⟩ := h.exists_bound
  exact hnot (hbare d hd)

/-- From a keyword that fits on, a pass replaces the last module behind bindings, if what it takes in stays. -/
theorem mapModules_last_bound (hcs : ∀ d ∈ pre ++ c :: post, d.Proper) (hc : ¬ c.IsBare) (hpost : ∀ d ∈ post, d.IsBare)
    (hkeyword : ∀ d ds, pre ++ c :: post = d :: ds → d.opening.shape.keyword = (Shape.binding e).keyword)
    (hspan : ∀ u e v, post = u ++ e :: v → e.quote = c.quote →
      f (c.module ++ through c.quote u e) = f c.module ++ through c.quote u e) :
    (Shape.binding e).mapModules f (joined (pre ++ c :: post)) = joined (pre ++ c.mapModule f :: post) := by
  have hbehind : ∀ d ∈ post, d.Proper := fun d hd => hcs d (by simp [hd])
  obtain ⟨w, v, x, h⟩ := exists_span (hcs c (by simp)).quote hbehind
  have hsub : ∀ d ∈ v, d ∈ post := fun d hd => h.split ▸ List.mem_append_right w hd
  have hv : (Shape.binding e).mapModules f (after v) = after v := by
    have hnone : (Shape.binding e).mapModules f (joined v) = joined v :=
      mapModules_binding_of_not_meets (fun d hd => hbehind d (hsub d hd))
        (not_meets_of_bare fun d hd => hpost d (hsub d hd))
    rw [mapModules_after (g := id) (by rw [List.map_id]; exact hnone), List.map_id]
  have hmodule : f (c.module ++ x) = f c.module ++ x := by
    rcases h.taken with ⟨rfl, rfl⟩ | ⟨u, e', rfl, he, rfl⟩
    · simp
    · exact hspan u e' v (by rw [h.split]; simp) he
  calc (Shape.binding e).mapModules f (joined (pre ++ c :: post))
    _ = upto pre ++ (c.opening.text ++ [c.quote] ++ (f c.module ++ x) ++ c.quote :: after v) := by
      rw [Shape.mapModules_of_find? (find?_binding hcs hc hpost hkeyword h), hv, hmodule]
      simp
    _ = joined (pre ++ c.mapModule f :: post) := by
      rw [h.text_mapModule, ← h.split, joined_split, List.append_assoc]

theorem map_mapBound (hc : ¬ c.IsBare) (hpre : ∀ d ∈ pre, ¬ d.IsBare → f d.module = d.module)
    (hpost : ∀ d ∈ post, d.IsBare) : (pre ++ c :: post).map (mapBound f) = pre ++ c.mapModule f :: post := by
  have hself {ds : List Clause} (hds : ∀ d ∈ ds, ¬ d.IsBare → f d.module = d.module) : ds.map (mapBound f) = ds :=
    (List.map_congr_left fun d hd => mapBound_eq_self (hds d hd)).trans (List.map_id ds)
  rw [List.map_append, List.map_cons, hself hpre, hself fun d hd hbare => absurd (hpost d hd) hbare, mapBound,
    if_neg hc]

/-- A pass that finds something replaces all modules behind bindings, if the last takes in nothing that changes and
the others are not changed anyway. -/
theorem mapModules_binding (hcs : ∀ c ∈ cs, c.Proper) (hmeets : Meets (.binding e) cs)
    (hfix : ∀ pre c post, cs = pre ++ c :: post → ¬ c.IsBare → (∃ d ∈ post, ¬ d.IsBare) → f c.module = c.module)
    (hspan : ∀ pre c u e v, cs = pre ++ c :: (u ++ e :: v) → ¬ c.IsBare → e.quote = c.quote →
      f (c.module ++ through c.quote u e) = f c.module ++ through c.quote u e) :
    (Shape.binding e).mapModules f (joined cs) = joined (cs.map (mapBound f)) := by
  induction cs with
  | nil => exact hmeets.elim
  | cons c cs ih =>
    have hc := hcs c List.mem_cons_self
    by_cases hhead : c.opening.shape.keyword = (Shape.binding e).keyword ∧ ∃ d ∈ c :: cs, ¬ d.IsBare
    · obtain ⟨pre, l, post, hsplit, hl, hpost⟩ := exists_last_bound hhead.2
      have hkeyword : ∀ d ds, pre ++ l :: post = d :: ds → d.opening.shape.keyword = (Shape.binding e).keyword := by
        rintro d ds hd
        obtain ⟨rfl, -⟩ := List.cons.inj (hsplit.trans hd)
        exact hhead.1
      have hpre : ∀ d ∈ pre, ¬ d.IsBare → f d.module = d.module := fun d hd hbare => by
        obtain ⟨pre₁, pre₂, rfl⟩ := List.append_of_mem hd
        exact hfix pre₁ d (pre₂ ++ l :: post) (by rw [hsplit]; simp) hbare ⟨l, by simp, hl⟩
      rw [hsplit] at hcs ⊢
      rw [map_mapBound hl hpre hpost]
      exact mapModules_last_bound hcs hl hpost hkeyword fun u e' v htaken he =>
        hspan pre l u e' v (by rw [hsplit, htaken]) hl he
    · have htail : Meets (.binding e) cs := hmeets.resolve_left hhead
      have hnone : (Shape.binding e).find? (c.text ++ after cs) = none := by
        refine find?_of_keyword_ne hc (fun hkeyword => hhead ⟨hkeyword, ?_⟩) _
        obtain ⟨d, hd, hbare⟩ := htail.exists_bound
        exact ⟨d, List.mem_cons_of_mem c hd, hbare⟩
      have hself : mapBound f c = c := mapBound_eq_self fun hbare => hfix [] c cs rfl hbare htail.exists_bound
      have hcs' := ih (fun d hd => hcs d (List.mem_cons_of_mem c hd)) htail
        (fun pre d post hsplit => hfix (c :: pre) d post (by rw [hsplit, List.cons_append]))
        (fun pre d u e v hsplit => hspan (c :: pre) d u e v (by rw [hsplit, List.cons_append]))
      rw [joined_cons, hc.mapModules_skip hnone, mapModules_after hcs', List.map_cons, hself, joined_cons]

end Clause

end Rehome.Statement
