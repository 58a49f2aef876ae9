import Rehome.Proofs.Statement.Frame

/-! A statement with a comment behind it. The module that a pattern finds goes up to the last quote of its
kind on the line, so the comment decides where it ends. -/

namespace Rehome.Statement

/-- Neither `import` before a blank nor `from` between blanks occurs. -/
structure Cueless (t : Text) : Prop where
  bare : ∀ b, Text.isBlank b → ¬ Shape.importBare.keyword ++ [b] <:+: t
  binding : ∀ b c, Text.isBlank b → Text.isBlank c → ¬ b :: "from".toList ++ [c] <:+: t

theorem Cueless.of_wordless {t : Text} (himport : ¬ Shape.importBare.keyword <:+: t)
    (hfrom : ¬ "from".toList <:+: t) : Cueless t where
  bare b _ h := himport ((List.prefix_append _ [b]).isInfix.trans h)
  binding b c _ _ h := hfrom (List.IsInfix.trans ⟨[b], [c], rfl⟩ h)

namespace Opening

/-- The words right before the opening quote. -/
def cue (o : Opening) : Text :=
  match o with
  | bare gap => o.shape.keyword ++ [gap]
  | binding _ _ _ before after => before :: "from".toList ++ [after]

variable {o : Opening}

theorem cue_suffix (o : Opening) : o.cue <:+ o.text := by
  cases o with
  | bare gap => exact List.suffix_refl _
  | binding e gap u b c =>
    rw [cue, text, List.append_assoc]
    exact List.suffix_append _ _

/-- A cue is made of letters and blanks. -/
theorem WellFormed.not_mem_cue (ho : o.WellFormed) {c : Char} (hblank : ¬ Text.isBlank c)
    (himport : c ∉ Shape.importBare.keyword) (hfrom : c ∉ "from".toList) : c ∉ o.cue := by
  have hne {d : Char} (hd : Text.isBlank d) : c ≠ d := fun h => hblank (h ▸ hd)
  cases o with
  | bare gap =>
    rw [cue, List.mem_append, not_or]
    exact ⟨himport, fun h => hne ho (List.mem_singleton.1 h)⟩
  | binding e gap u b d =>
    obtain ⟨-, -, -, hb, hd⟩ := ho
    rw [cue, List.mem_append, List.mem_cons, not_or, not_or]
    exact ⟨⟨hne hb, hfrom⟩, fun h => hne hd (List.mem_singleton.1 h)⟩

theorem WellFormed.slash_not_mem_cue (ho : o.WellFormed) : '/' ∉ o.cue :=
  ho.not_mem_cue (by decide) (by decide) (by decide)

theorem WellFormed.quote_not_mem_cue (ho : o.WellFormed) {q : Char} (hq : IsQuote q) : q ∉ o.cue :=
  ho.not_mem_cue hq.not_isBlank (by rcases hq with rfl | rfl <;> decide)
    (by rcases hq with rfl | rfl <;> decide)

theorem WellFormed.not_cue_infix (ho : o.WellFormed) {t : Text} (ht : Cueless t) : ¬ o.cue <:+: t := by
  cases o with
  | bare gap => exact ht.bare gap ho
  | binding e gap u b c =>
    obtain ⟨-, -, -, hb, hc⟩ := ho
    exact ht.binding b c hb hc

/-- No opening ends behind a slash, unless the words before its quote stand there. -/
theorem WellFormed.not_behind_slash (ho : o.WellFormed) {t u w x : Text} (ht : Cueless (t ++ u)) :
    w ++ o.text ≠ x ++ '/' :: t := by
  intro h
  have hcue : o.cue <:+ x ++ '/' :: t := o.cue_suffix.trans ⟨w, h⟩
  have hslash : '/' :: t <:+ x ++ '/' :: t := List.suffix_append _ _
  rcases List.suffix_or_suffix_of_suffix hcue hslash with h | h
  · rcases List.suffix_cons_iff.1 h with h | h
    · exact ho.slash_not_mem_cue (h ▸ List.mem_cons_self)
    · exact ho.not_cue_infix ht (h.isInfix.trans (List.prefix_append t u).isInfix)
  · exact ho.slash_not_mem_cue (h.subset List.mem_cons_self)

end Opening

/-- What may follow a statement: a semicolon, blanks and a comment. -/
structure Trailer where
  semicolon : Bool
  gap : Text
  comment : Text

namespace Trailer

/-- The trailer up to its first slash. -/
def lead (r : Trailer) : Text := (if r.semicolon then [';'] else []) ++ r.gap ++ ['/']

def text (r : Trailer) : Text := r.lead ++ '/' :: r.comment

variable {r : Trailer} {q : Char}

theorem quote_not_mem_lead (hgap : ∀ c ∈ r.gap, IsGap c) (hq : IsQuote q) : q ∉ r.lead := by
  simp only [lead, List.mem_append, List.mem_singleton, not_or]
  refine ⟨⟨fun h => ?_, fun h => (hgap q h).not_isQuote hq⟩, ?_⟩
  · split at h
    · rcases hq with rfl | rfl <;> simp at h
    · cases h
  · rintro rfl
    exact absurd hq (by decide)

theorem mem_text_iff (hgap : ∀ c ∈ r.gap, IsGap c) (hq : IsQuote q) : q ∈ r.text ↔ q ∈ r.comment := by
  have hslash : q ≠ '/' := by
    rintro rfl
    exact absurd hq (by decide)
  simp [text, quote_not_mem_lead hgap hq, hslash]

/-- Nothing that a trailer starts with is a relative module. -/
theorem head_text_ne_dot (hgap : ∀ c ∈ r.gap, IsGap c) : r.text.head? ≠ some '.' := by
  obtain ⟨semicolon, gap, comment⟩ := r
  cases semicolon with
  | true => simp [text, lead]
  | false =>
    cases gap with
    | nil => simp [text, lead]
    | cons c gap =>
      have hc := (hgap c List.mem_cons_self).1
      simp only [text, lead, Bool.false_eq_true, if_false, List.nil_append, List.cons_append,
        List.head?_cons, ne_eq, Option.some.injEq]
      rintro rfl
      exact absurd hc (by decide)

end Trailer

/-- The parts of a line that is a statement with a comment behind it. -/
structure Commented (i : Text) (o : Opening) (q : Char) (m : Text) (r : Trailer) : Prop where
  indent : ∀ c ∈ i, IsGap c
  opening : o.Proper
  quote : IsQuote q
  module_ne_nil : m ≠ []
  module : Unquoted m
  gap : ∀ c ∈ r.gap, IsGap c
  comment : Cueless r.comment

namespace Commented

variable {i m w v : Text} {o : Opening} {q : Char} {r : Trailer} {s : Shape} {g : Found} {f : Text → Text}

/-- What a pattern finds on the line is opened by a quote of the statement, if not by the one that opens its
module then by the one that closes it. -/
theorem find?_cases (h : Commented i o q m r) (hv : (Line.statement i o q m r.text).text = w ++ v)
    (hg : s.find? v = some g) :
    g.quote = q ∧
      (w = i ∧ o.shape = s ∧ g.lead = o.text ++ [q] ∧ m ++ q :: r.text = g.module ++ q :: g.rest ∨
        r.text = g.module ++ q :: g.rest) := by
  obtain ⟨⟨hq', -, -⟩, o', ho', hs, hlead⟩ := Shape.opening_of_find? hg
  obtain ⟨lead, m', q', rest⟩ := g
  obtain rfl : lead = o'.text ++ [q'] := hlead
  change IsQuote q' at hq'
  have hsrc : v = o'.text ++ q' :: (m' ++ q' :: rest) := by
    simpa [Found.source] using Faithful.find s hg
  have hcut : (i ++ o.text) ++ q :: (m ++ q :: r.text) = (w ++ o'.text) ++ q' :: (m' ++ q' :: rest) := by
    rw [List.append_assoc w, ← hsrc, ← hv]
    rfl
  have hopening : q' ∉ i ++ o.text := by
    rw [List.mem_append]
    rintro (hc | hc)
    · exact (h.indent q' hc).not_isQuote hq'
    · exact (h.opening.unquoted q' hc).2 hq'
  have hmodule : q' ∉ m := fun hc => (h.module q' hc).2 hq'
  have hlead : q' ∉ r.lead := Trailer.quote_not_mem_lead h.gap hq'
  rcases cut_cases hcut hopening with ⟨hstart, rfl, hrest⟩ | ⟨z, hstart, hmodule'⟩
  · obtain ⟨rfl, rfl⟩ := Opening.eq_of_append_text h.opening ho' h.indent hstart
    exact ⟨rfl, .inl ⟨rfl, hs, rfl, hrest.symm⟩⟩
  rcases cut_cases hmodule' hmodule with ⟨-, rfl, hrest⟩ | ⟨z', rfl, htrailer⟩
  · exact ⟨rfl, .inr hrest.symm⟩
  -- a quote in the comment opens nothing, as no words for it stand there
  rcases cut_cases htrailer hlead with ⟨-, rfl, -⟩ | ⟨z, rfl, hcomment⟩
  · exact absurd hq' (by decide)
  · have hcueless : Cueless (z ++ q' :: (m' ++ q' :: rest)) := hcomment ▸ h.comment
    have hbehind := ho'.not_behind_slash (w := w)
      (x := (i ++ o.text) ++ q :: (m ++ q :: r.lead)) hcueless
    exact absurd hstart (by simpa using hbehind)

/-- A module that is not relative is followed by none. -/
theorem not_isRelative_of_find? (h : Commented i o q m r) (hm : Reference.isRelative m = false)
    (hv : (Line.statement i o q m r.text).text = w ++ v) (hg : s.find? v = some g) :
    Reference.isRelative g.module = false := by
  have hne : g.module ≠ [] := (Shape.opening_of_find? hg).1.module_ne_nil
  have hhead {t : Text} (ht : t ≠ []) (u : Text) : (t ++ u).head? = t.head? :=
    List.head?_append_of_ne_nil t ht
  simp only [Reference.isRelative, decide_eq_false_iff_not] at hm ⊢
  obtain ⟨-, ⟨-, -, -, hrest⟩ | hrest⟩ := h.find?_cases hv hg
  · rwa [← hhead hne, ← hrest, hhead h.module_ne_nil]
  · rw [← hhead hne, ← hrest]
    exact Trailer.head_text_ne_dot h.gap

/-- No opening goes on through the opening quote of the module, unless the module ends in a cue. -/
theorem text_ne_append_module (h : Commented i o q m r)
    (hm : ∀ b c, Text.isBlank b → Text.isBlank c → ¬ b :: "from".toList ++ [c] <:+ m) {o' : Opening}
    (ho' : o'.WellFormed) (hs : o'.shape = o.shape) : o'.text ≠ o.text ++ q :: m := by
  intro ht
  have hquote : q ∉ o'.cue := ho'.quote_not_mem_cue h.quote
  have hcue : o'.cue <:+ o.text ++ q :: m := ht ▸ o'.cue_suffix
  have hbehind : o'.cue <:+ m := by
    rcases List.suffix_or_suffix_of_suffix hcue (List.suffix_append _ (q :: m)) with hend | hend
    · rcases List.suffix_cons_iff.1 hend with hend | hend
      · exact absurd (hend ▸ List.mem_cons_self) hquote
      · exact hend
    · exact absurd (hend.subset List.mem_cons_self) hquote
  cases o' with
  | bare gap' =>
    cases o with
    | bare gap => simpa [Opening.text, Opening.shape] using congrArg List.length ht
    | binding e gap u b c => cases e <;> cases hs
  | binding e' gap' u' b' c' =>
    obtain ⟨-, -, -, hb, hc⟩ := ho'
    exact hm b' c' hb hc hbehind

/-- The pattern of the statement's shape takes all for its module that stands before the last quote of its
kind on the line. -/
theorem find?_module (h : Commented i o q m r) {n tail : Text} (hcut : m ++ q :: r.text = n ++ q :: tail)
    (hline : '\n' ∉ n) (hlast : q ∉ tail)
    (hm : q ∈ r.comment → ∀ b c, Text.isBlank b → Text.isBlank c → ¬ b :: "from".toList ++ [c] <:+ m) :
    o.shape.find? (o.text ++ q :: (n ++ q :: tail)) = some ⟨o.text ++ [q], n, q, tail⟩ := by
  obtain ⟨g, hg⟩ := Opening.exists_find? (r := r.text) h.opening.wellFormed h.quote h.module_ne_nil
    fun hn => (h.module _ hn).1 rfl
  obtain ⟨⟨-, -, -, hgone⟩, o', ho', hs, hlead⟩ := Shape.opening_of_find? hg
  have hsource := Faithful.find _ hg
  obtain ⟨hq, ⟨-, -, hlead', hrest⟩ | hrest⟩ := h.find?_cases (w := i) (by simp [Line.text]) hg
  · obtain ⟨lead, m', q', rest⟩ := g
    obtain rfl : q' = q := hq
    obtain rfl : lead = o.text ++ [q'] := hlead'
    rw [← hcut, hg]
    rcases cut_last (hcut.symm.trans hrest) hlast with ⟨hn, htail⟩ | ⟨z, rfl, hz⟩
    · obtain rfl : m' = n := hn
      obtain rfl : rest = tail := htail
      rfl
    · exact absurd (by simp [hgone z tail hz]) hline
  -- the opening quote cannot be passed over, as no opening goes on through it
  · have hquote : q ∈ r.comment := (Trailer.mem_text_iff h.gap h.quote).1 (by rw [hrest]; simp)
    rw [Found.source, hlead, hq, hrest] at hsource
    have hthrough : o'.text ++ q :: (g.module ++ q :: g.rest) =
        (o.text ++ q :: m) ++ q :: (g.module ++ q :: g.rest) := by
      simpa using hsource.symm
    exact absurd (List.append_cancel_right hthrough) (h.text_ne_append_module (hm hquote) ho' hs)

/-- A pass for the shape of the statement replaces all that it takes for the module, and goes on behind it. -/
theorem mapModules_shape (h : Commented i o q m r) {n tail : Text} (hcut : m ++ q :: r.text = n ++ q :: tail)
    (hline : '\n' ∉ n) (hlast : q ∉ tail)
    (hm : q ∈ r.comment → ∀ b c, Text.isBlank b → Text.isBlank c → ¬ b :: "from".toList ++ [c] <:+ m)
    (f : Text → Text) :
    o.shape.mapModules f (Line.statement i o q m r.text).text = (Line.statement i o q (f n) tail).text := by
  have htext : (Line.statement i o q m r.text).text = (Line.statement i o q n tail).text := by
    rw [Line.text, Line.text, hcut]
  have hfound := h.find?_module hcut hline hlast hm
  have htail : ∀ u v, tail = u ++ v → v ≠ [] → o.shape.find? (v ++ []) = none := by
    intro u v huv _
    refine Option.eq_none_iff_forall_ne_some.2 fun g hg => ?_
    obtain ⟨hq, -⟩ := h.find?_cases (w := i ++ o.text ++ q :: (n ++ q :: u))
      (htext.trans (by simp [Line.text, huv])) hg
    have hmem : q ∈ v ++ [] := by rw [Faithful.find _ hg, Found.source, hq]; simp
    rw [List.append_nil] at hmem
    exact hlast (huv ▸ List.mem_append_right u hmem)
  have halone := Line.mapModules_alone (f := f) h.indent (by simpa using hfound) htail
  simpa [htext, Shape.mapModules_nil] using halone

/-- Where the quote is not in the comment, a pass replaces the module if the statement has its shape. -/
theorem mapModules (h : Commented i o q m r) (hquote : q ∉ r.comment) (s : Shape) (f : Text → Text) :
    s.mapModules f (Line.statement i o q m r.text).text =
      ((Line.statement i o q m r.text).mapShape s f).text := by
  have htext : q ∉ r.text := fun hc => hquote ((Trailer.mem_text_iff h.gap h.quote).1 hc)
  rw [Line.mapShape]
  split
  · next hs =>
    subst hs
    exact h.mapModules_shape rfl (fun hn => (h.module _ hn).1 rfl) htext (fun hc => absurd hc hquote) f
  · next hs =>
    exact Shape.mapModules_eq_self fun v g hv hg => by
      obtain ⟨w, hw⟩ := hv
      obtain ⟨-, ⟨-, hshape, -⟩ | hrest⟩ := h.find?_cases hw.symm hg
      · exact absurd hshape hs
      · exact absurd (by rw [hrest]; simp) htext

theorem mapShape (h : Commented i o q m r) (hf : f m ≠ [] ∧ Unquoted (f m)) (s : Shape) :
    Commented i o q (if o.shape = s then f m else m) r := by
  split
  · exact { h with module_ne_nil := hf.1, module := hf.2 }
  · exact h

end Commented

/-- The comment behind a statement stays, and its module is resolved, as long as the quote is not used in
the comment or the module is not relative. -/
theorem resolveAll_commented {current i m : Text} {o : Opening} {q : Char} {r : Trailer}
    (hc : Unquoted current) (h : Commented i o q m r)
    (hquote : q ∉ r.comment ∨ Reference.isRelative m = false) :
    resolveAll current (Line.statement i o q m r.text).text =
      (Line.statement i o q (Reference.resolve current m) r.text).text := by
  rcases hquote with hquote | hm
  · have hf {m : Text} (hm : m ≠ []) (hu : Unquoted m) :=
      And.intro (resolve_ne_nil current hm) (unquoted_resolve hc hu)
    have h₁ := h.mapShape (hf h.module_ne_nil h.module) .importFrom
    have h₂ := h₁.mapShape (hf h₁.module_ne_nil h₁.module) .importBare
    rw [resolveAll, List.foldl_cons, List.foldl_cons, List.foldl_cons, List.foldl_nil,
      h.mapModules hquote, Line.mapShape, h₁.mapModules hquote, Line.mapShape, h₂.mapModules hquote]
    exact congrArg Line.text (Line.mapShape_passes (Line.statement i o q m r.text))
  · rw [resolve_eq_self hm]
    exact resolveAll_eq_self current fun s v g hv hg => by
      obtain ⟨w, hw⟩ := hv
      exact h.not_isRelative_of_find? hm hw.symm hg

/-- The comment may hold quotes of the other kind, and any behind a module that is not relative. -/
theorem resolveAll_commented_quotes :
    resolveAll "ns/a/x".toList "\texport * from \"../y\"; // it's './z'".toList =
        "\texport * from \"ns/y\"; // it's './z'".toList ∧
      resolveAll "ns/a/x".toList "import 'z'//it's".toList = "import 'z'//it's".toList := by
  have hexport : Commented ['\t'] (.binding true ' ' ['*'] ' ' ' ') '"' "../y".toList
      ⟨true, [' '], " it's './z'".toList⟩ :=
    { indent := List.forall_mem_singleton.2 (by decide)
      opening := ⟨by decide, by decide, by decide, by decide, by decide, by
        rintro s b - h
        simpa [s.length_keyword] using h.length_le⟩
      quote := .inr rfl
      module_ne_nil := by decide
      module := by decide
      gap := List.forall_mem_singleton.2 (by decide)
      comment := .of_wordless (by decide) (by decide) }
  have himport : Commented [] (.bare ' ') '\'' "z".toList ⟨false, [], "it's".toList⟩ :=
    { indent := List.forall_mem_nil _
      opening := show IsGap ' ' by decide
      quote := .inl rfl
      module_ne_nil := by decide
      module := by decide
      gap := List.forall_mem_nil _
      comment := .of_wordless (by decide) (by decide) }
  have hcurrent : Unquoted "ns/a/x".toList := by decide
  exact ⟨(resolveAll_commented hcurrent hexport (.inl (by decide))).trans (by decide),
    (resolveAll_commented hcurrent himport (.inr (by decide))).trans (by decide)⟩

/-- An apostrophe in the comment is taken for the end of the module, and what stands before it is
normalized like a path. -/
theorem resolveAll_swallows_comment :
    resolveAll "ns/a".toList "import './y'; // it's".toList ≠ "import 'ns/y'; // it's".toList := by
  decide +kernel

end Rehome.Statement
