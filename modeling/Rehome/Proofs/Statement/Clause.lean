import Rehome.Proofs.Reference.Extended
import Rehome.Proofs.Statement.Once

/-! Sequences of statements on one line, and where on such a line a pattern can find something: the quote that opens
the module there is one that opens the module of a statement, and that statement has bindings if and only if the
pattern asks for them. -/

namespace Rehome.Statement

/-- Neither a keyword before a blank nor `from` between blanks occurs. -/
structure Wordless (t : Text) : Prop extends Cueless t where
  keyword : ∀ (s : Shape) b, Text.isBlank b → ¬ s.keyword ++ [b] <:+: t

theorem Wordless.resolve {current m : Text} (hc : Wordless current) (hm : Wordless m) :
    Wordless (Reference.resolve current m) := by
  have hblank {b c : Char} (hb : Text.isBlank b) (h : ¬ Text.isBlank c) : c ≠ b := fun he => h (he ▸ hb)
  have hkeyword (s : Shape) (b : Char) (hb : Text.isBlank b) :
      ¬ s.keyword ++ [b] <:+: Reference.resolve current m := fun h => by
    have hnot {c : Char} (hs : c ∉ s.keyword) (hc : ¬ Text.isBlank c) : c ∉ s.keyword ++ [b] := by
      rw [List.mem_append, List.mem_singleton, not_or]
      exact ⟨hs, hblank hb hc⟩
    rcases Reference.isInfix_of_isInfix_resolve (by simp) (hnot (by cases s <;> decide) (by decide))
      (hnot (by cases s <;> decide) (by decide)) h with h | h
    · exact hc.keyword s b hb h
    · exact hm.keyword s b hb h
  refine ⟨⟨hkeyword .importBare, fun b c hb hc' h => ?_⟩, hkeyword⟩
  have hnot {d : Char} (hfrom : d ∉ "from".toList) (hd : ¬ Text.isBlank d) : d ∉ b :: "from".toList ++ [c] := by
    rw [List.mem_append, List.mem_cons, List.mem_singleton, not_or, not_or]
    exact ⟨⟨hblank hb hd, hfrom⟩, hblank hc' hd⟩
  rcases Reference.isInfix_of_isInfix_resolve (by simp) (hnot (by decide) (by decide)) (hnot (by decide) (by decide)) h
    with h | h
  · exact hc.binding b c hb hc' h
  · exact hm.binding b c hb hc' h

theorem Opening.WellFormed.exists_keyword {o : Opening} (ho : o.WellFormed) :
    ∃ b r, Text.isBlank b ∧ o.text = o.shape.keyword ++ b :: r := by
  cases o with
  | bare gap => exact ⟨gap, [], ho, rfl⟩
  | binding e gap u b c => exact ⟨gap, u ++ b :: ("from".toList ++ [c]), ho.1, by simp [Opening.text]⟩

/-- A statement without what may stand around it on its line. -/
structure Clause where
  opening : Opening
  quote : Char
  module : Text
  deriving DecidableEq

namespace Clause

def text (c : Clause) : Text := c.opening.text ++ c.quote :: (c.module ++ [c.quote])

def mapModule (f : Text → Text) (c : Clause) : Clause := { c with module := f c.module }

def IsBare (c : Clause) : Prop := c.opening.shape = .importBare

instance (c : Clause) : Decidable c.IsBare := inferInstanceAs (Decidable (_ = _))

/-- The statements of a line, one after another. -/
def joined (cs : List Clause) : Text := "; ".toList.intercalate (cs.map text)

/-- What stands between a statement and the end of the line, if these follow. -/
def after (cs : List Clause) : Text := cs.flatMap fun c => "; ".toList ++ c.text

/-- What stands before a statement, if it follows these. -/
def upto (cs : List Clause) : Text := cs.flatMap fun c => c.text ++ "; ".toList

/-- No quote, no line feed and no words that another statement could start with or open its module with. -/
structure Proper (c : Clause) : Prop where
  opening : c.opening.Proper
  words : ∀ (s : Shape) b, Text.isBlank b → ¬ s.keyword ++ [b] <:+: c.opening.text.tail
  quote : IsQuote c.quote
  module_ne_nil : c.module ≠ []
  module : Unquoted c.module
  wordless : Wordless c.module

variable {c : Clause} {cs pre post : List Clause}

theorem joined_cons (c : Clause) (cs : List Clause) : joined (c :: cs) = c.text ++ after cs := by
  induction cs generalizing c with
  | nil => simp [joined, after]
  | cons d cs ih =>
    have hd := ih d
    rw [joined] at hd ⊢
    rw [List.map_cons, List.map_cons, List.intercalate_cons_cons, ← List.map_cons, hd]
    simp [after]

theorem after_cons (c : Clause) (cs : List Clause) : after (c :: cs) = "; ".toList ++ joined (c :: cs) := by
  rw [joined_cons, after, List.flatMap_cons, List.append_assoc]
  rfl

theorem after_append (cs ds : List Clause) : after (cs ++ ds) = after cs ++ after ds := List.flatMap_append

theorem upto_cons (c : Clause) (cs : List Clause) : upto (c :: cs) = c.text ++ "; ".toList ++ upto cs := rfl

theorem joined_split (pre : List Clause) (c : Clause) (post : List Clause) :
    joined (pre ++ c :: post) = upto pre ++ c.text ++ after post := by
  induction pre with
  | nil => exact joined_cons c post
  | cons d pre ih =>
    obtain ⟨e, es, hes⟩ := List.exists_cons_of_ne_nil (List.append_ne_nil_of_right_ne_nil pre (List.cons_ne_nil c post))
    rw [List.cons_append, joined_cons, hes, after_cons, ← hes, ih, upto_cons]
    simp

/-! ### Where a pattern can find something -/

namespace Proper

theorem wellFormed (h : c.Proper) : c.opening.WellFormed := h.opening.wellFormed

theorem not_mem_opening (h : c.Proper) {q : Char} (hq : IsQuote q) : q ∉ c.opening.text := fun hc =>
  (h.opening.unquoted q hc).2 hq

theorem not_mem_module (h : c.Proper) {q : Char} (hq : IsQuote q) : q ∉ c.module := fun hc => (h.module q hc).2 hq

theorem newline_not_mem (h : c.Proper) : '\n' ∉ c.text := by
  simp only [text, List.mem_append, List.mem_cons, List.not_mem_nil, or_false, not_or]
  have hquote := Ne.symm h.quote.ne_newline
  exact ⟨fun hc => (h.opening.unquoted _ hc).1 rfl, hquote, fun hc => (h.module _ hc).1 rfl, hquote⟩

end Proper

/-- A quote of the line opens the module of a statement or closes it. -/
theorem exists_of_quote (hcs : ∀ c ∈ cs, c.Proper) {w r : Text} {q : Char} (hq : IsQuote q)
    (h : joined cs = w ++ q :: r) :
    ∃ pre c post, cs = pre ++ c :: post ∧ q = c.quote ∧
      (w = upto pre ++ c.opening.text ∧ r = c.module ++ c.quote :: after post ∨
        w = upto pre ++ c.opening.text ++ c.quote :: c.module ∧ r = after post) := by
  induction cs generalizing w with
  | nil => simp [joined] at h
  | cons c cs ih =>
    have hc := hcs c List.mem_cons_self
    rw [joined_cons, text, List.append_assoc, List.cons_append, List.append_assoc, List.singleton_append] at h
    rcases cut_cases h (hc.not_mem_opening hq) with ⟨rfl, rfl, rfl⟩ | ⟨z, rfl, hmodule⟩
    · exact ⟨[], c, cs, rfl, rfl, .inl ⟨rfl, rfl⟩⟩
    rcases cut_cases hmodule (hc.not_mem_module hq) with ⟨rfl, rfl, rfl⟩ | ⟨z', rfl, hafter⟩
    · exact ⟨[], c, cs, rfl, rfl, .inr ⟨rfl, rfl⟩⟩
    -- the quote stands behind this statement
    cases cs with
    | nil => simp [after] at hafter
    | cons d ds =>
      have hseparator : q ∉ "; ".toList := by rcases hq with rfl | rfl <;> decide
      rw [after_cons] at hafter
      obtain ⟨z, rfl, hz⟩ := Text.exists_of_append_cut hseparator hafter
      obtain ⟨pre, e, post, hsplit, rfl, hcase⟩ := ih (fun d hd => hcs d (List.mem_cons_of_mem c hd)) hz
      refine ⟨c :: pre, e, post, by rw [hsplit, List.cons_append], rfl, hcase.imp ?_ ?_⟩
      · rintro ⟨rfl, hr⟩
        exact ⟨by simp [upto_cons, text], hr⟩
      · rintro ⟨rfl, hr⟩
        exact ⟨by simp [upto_cons, text], hr⟩

/-- What can be read at the start of the line has its module opened by the quote of a statement, which is bare if
the reading is. -/
theorem exists_of_reads (hcs : ∀ c ∈ cs, c.Proper) {o : Opening} {q : Char} {m r : Text}
    (hr : Reads (joined cs) o q m r) :
    ∃ pre c post, cs = pre ++ c :: post ∧ q = c.quote ∧ o.text = upto pre ++ c.opening.text ∧
      m ++ q :: r = c.module ++ c.quote :: after post ∧ (c.IsBare ↔ o.shape = .importBare) := by
  obtain ⟨pre, c, post, rfl, rfl, hcase⟩ := exists_of_quote hcs hr.quote hr.source
  have hc := hcs c (by simp)
  rcases hcase with ⟨ho, hrest⟩ | ⟨ho, -⟩
  · have hopens : c.opening.shape.Opens o.text := ⟨c.opening, hc.wellFormed, rfl, ho ▸ List.suffix_append _ _⟩
    have hopens' : o.shape.Opens o.text := ⟨o, hr.opening, rfl, List.suffix_refl _⟩
    refine ⟨pre, c, post, rfl, rfl, ho, hrest, fun hbare => ?_, fun hbare => ?_⟩
    · rcases o.shape.eq_importBare_or_binding with hs | ⟨e, hs⟩
      · exact hs
      · exact absurd (hs ▸ hopens') (Shape.not_opens_binding (hbare ▸ hopens) e)
    · rcases c.opening.shape.eq_importBare_or_binding with hs | ⟨e, hs⟩
      · exact hs
      · exact absurd (hs ▸ hopens) (Shape.not_opens_binding (hbare ▸ hopens') e)
  -- no words that open a module end another one
  · have hcue : o.cue <:+ upto pre ++ c.opening.text ++ c.quote :: c.module := ho ▸ o.cue_suffix
    have hmodule := Text.isSuffix_of_cut (hr.opening.quote_not_mem_cue hc.quote) hcue
    exact absurd hmodule.isInfix (hr.opening.not_cue_infix hc.wordless.toCueless)

variable {s : Shape} {f : Text → Text}

/-- No statement starts inside another one. -/
theorem Proper.find?_inside (h : c.Proper) {u v : Text} (hu : u ≠ []) (hv : v ≠ []) (huv : c.text = u ++ v) (t : Text) :
    s.find? (v ++ t) = none := by
  refine find?_eq_none_iff.2 fun o q m r _ hr => ?_
  obtain ⟨b, x, hb, ho⟩ := hr.opening.exists_keyword
  obtain ⟨v, d, rfl⟩ := (List.eq_nil_or_concat v).resolve_left hv
  rw [List.concat_eq_append, text, List.append_cons, ← List.append_assoc, ← List.append_assoc] at huv
  obtain ⟨hstart, hend⟩ := List.append_inj' huv rfl
  obtain rfl := (List.cons.inj hend).1
  have hkeyword : o.shape.keyword ++ [b] <+: v ++ c.quote :: t := by
    refine ⟨x ++ q :: (m ++ q :: r), ?_⟩
    have hsource := hr.source
    rw [ho] at hsource
    simpa using hsource.symm
  have hquote : c.quote ∉ o.shape.keyword ++ [b] := by
    rw [List.mem_append, List.mem_singleton, not_or]
    refine ⟨fun hc => (o.shape.unquoted_keyword _ hc).2 h.quote, ?_⟩
    rintro rfl
    exact h.quote.not_isBlank hb
  -- the keyword lies in the opening behind its first letter, or in the module
  obtain ⟨k, ks, hk, -⟩ := c.opening.text_eq_cons
  obtain ⟨k', u, rfl⟩ := List.exists_cons_of_ne_nil hu
  have hinside : o.shape.keyword ++ [b] <:+: c.opening.text.tail ++ c.quote :: c.module := by
    rw [hk, List.tail_cons]
    rw [hk] at hstart
    have htail : ks ++ c.quote :: c.module = u ++ v := by simpa using (List.cons.inj hstart).2
    exact htail ▸ (Text.isPrefix_of_cut hquote hkeyword).isInfix.trans (List.suffix_append u v).isInfix
  rcases Text.isInfix_cut_cases hquote hinside with hi | hi
  · exact h.words _ b hb hi
  · exact h.wordless.keyword _ b hb hi

/-- Where no statement is found at its start, a pass leaves a statement and goes on behind it. -/
theorem Proper.mapModules_skip (h : c.Proper) {t : Text} (hnone : s.find? (c.text ++ t) = none) :
    s.mapModules f (c.text ++ t) = c.text ++ s.mapModules f t := by
  refine Shape.mapModules_append fun u v huv hv => ?_
  by_cases hu : u = []
  · rw [hu, List.nil_append] at huv
    exact huv ▸ hnone
  · exact h.find?_inside hu hv huv t

theorem mapModules_after {g : Clause → Clause} (h : s.mapModules f (joined cs) = joined (cs.map g)) :
    s.mapModules f (after cs) = after (cs.map g) := by
  cases cs with
  | nil => exact Shape.mapModules_nil
  | cons c cs =>
    have hsemicolon := Line.find?_of_head (s := s) (c := ';') (by decide) (by decide) (' ' :: joined (c :: cs))
    have hgap := Line.find?_of_head (s := s) (c := ' ') (by decide) (by decide) (joined (c :: cs))
    calc s.mapModules f (after (c :: cs))
      _ = s.mapModules f (';' :: ' ' :: joined (c :: cs)) := by rw [after_cons]; rfl
      _ = ';' :: ' ' :: s.mapModules f (joined (c :: cs)) := by
        rw [Shape.mapModules_cons hsemicolon, Shape.mapModules_cons hgap]
      _ = after ((c :: cs).map g) := by
        rw [h, List.map_cons, after_cons]
        rfl

/-! ### What a pattern finds -/

/-- What a module takes in besides itself, if it is read from a quote over these statements and up to the last quote
of one more. -/
def through (q : Char) (u : List Clause) (e : Clause) : Text :=
  q :: (after u ++ ("; ".toList ++ e.opening.text) ++ e.quote :: e.module)

/-- Read up to the last quote of its kind on the line, the module of `c` takes in `x`, and with it the statements
`w`; the statements `v` stand behind it. -/
structure Span (c : Clause) (cs w v : List Clause) (x : Text) : Prop where
  split : cs = w ++ v
  text : c.quote :: after w = x ++ [c.quote]
  last : c.quote ∉ after v
  taken : w = [] ∧ x = [] ∨ ∃ u e, w = u ++ [e] ∧ e.quote = c.quote ∧ x = through c.quote u e

theorem mem_after_iff {d : Char} : d ∈ after cs ↔ ∃ c ∈ cs, d ∈ "; ".toList ∨ d ∈ c.text := by
  simp only [after, List.mem_flatMap, List.mem_append]

theorem newline_not_mem_after (hcs : ∀ c ∈ cs, c.Proper) : '\n' ∉ after cs := by
  rw [mem_after_iff]
  rintro ⟨c, hc, h | h⟩
  · exact absurd h (by decide)
  · exact (hcs c hc).newline_not_mem h

theorem quote_mem_after_iff (hcs : ∀ c ∈ cs, c.Proper) {q : Char} (hq : IsQuote q) :
    q ∈ after cs ↔ ∃ c ∈ cs, c.quote = q := by
  have hseparator : q ∉ "; ".toList := by rcases hq with rfl | rfl <;> decide
  rw [mem_after_iff]
  refine exists_congr fun c => and_congr_right fun hc => ?_
  have htext : q ∈ c.text ↔ c.quote = q := by
    simp [text, (hcs c hc).not_mem_opening hq, (hcs c hc).not_mem_module hq, eq_comm]
  rw [htext, or_iff_right hseparator]

/-- A quote is not used in what follows, or there is a last statement that uses it. -/
theorem exists_last_use (hcs : ∀ c ∈ cs, c.Proper) {q : Char} (hq : IsQuote q) :
    q ∉ after cs ∨ ∃ u e v, cs = u ++ e :: v ∧ e.quote = q ∧ q ∉ after v := by
  induction cs with
  | nil => exact .inl (by simp [after])
  | cons c cs ih =>
    have hrest : ∀ d ∈ cs, d.Proper := fun d hd => hcs d (List.mem_cons_of_mem c hd)
    rcases ih hrest with h | ⟨u, e, v, rfl, he, h⟩
    · by_cases hc : c.quote = q
      · exact .inr ⟨[], c, cs, rfl, hc, h⟩
      · refine .inl fun hmem => ?_
        obtain ⟨d, hd, hdq⟩ := (quote_mem_after_iff hcs hq).1 hmem
        rcases List.mem_cons.1 hd with rfl | hd
        · exact hc hdq
        · exact h ((quote_mem_after_iff hrest hq).2 ⟨d, hd, hdq⟩)
    · exact .inr ⟨c :: u, e, v, rfl, he, h⟩

theorem exists_span (hc : IsQuote c.quote) (hcs : ∀ d ∈ cs, d.Proper) : ∃ w v x, Span c cs w v x := by
  rcases exists_last_use hcs hc with h | ⟨u, e, v, rfl, he, h⟩
  · exact ⟨[], cs, [], rfl, rfl, h, .inl ⟨rfl, rfl⟩⟩
  · refine ⟨u ++ [e], v, through c.quote u e, by simp, ?_, h, .inr ⟨u, e, rfl, he, rfl⟩⟩
    rw [after_append, after_cons, joined_cons]
    simp [through, text, after, he]

namespace Span

variable {w v : List Clause} {x : Text}

theorem cut (h : Span c cs w v x) : c.module ++ c.quote :: after cs = (c.module ++ x) ++ c.quote :: after v := by
  rw [h.split, after_append, ← List.cons_append, h.text]
  simp

theorem newline_not_mem (h : Span c cs w v x) (hc : c.Proper) (hcs : ∀ d ∈ cs, d.Proper) : '\n' ∉ c.module ++ x := by
  have htext : '\n' ∉ c.quote :: after w := by
    rw [List.mem_cons, not_or]
    exact ⟨Ne.symm hc.quote.ne_newline, newline_not_mem_after fun d hd => hcs d (by simp [h.split, hd])⟩
  rw [h.text, List.mem_append, not_or] at htext
  rw [List.mem_append, not_or]
  exact ⟨fun hn => (hc.module _ hn).1 rfl, htext.1⟩

/-- With another module in front of what is taken in, the statements that are taken in come back. -/
theorem text_mapModule (h : Span c cs w v x) (f : Text → Text) (v' : List Clause) :
    c.opening.text ++ [c.quote] ++ (f c.module ++ x) ++ c.quote :: after v' =
      (c.mapModule f).text ++ after (w ++ v') := by
  calc c.opening.text ++ [c.quote] ++ (f c.module ++ x) ++ c.quote :: after v'
    _ = c.opening.text ++ [c.quote] ++ f c.module ++ (x ++ [c.quote]) ++ after v' := by simp
    _ = c.opening.text ++ [c.quote] ++ f c.module ++ c.quote :: after w ++ after v' := by rw [← h.text]
    _ = (c.mapModule f).text ++ after (w ++ v') := by
      rw [after_append]
      simp [Clause.text, mapModule]

/-- An opening in front of the module finds all of it, if no other of its shape goes further. -/
theorem find? (h : Span c post w v x) (hcs : ∀ d ∈ pre ++ c :: post, d.Proper) {o : Opening} (ho : o.WellFormed)
    (htext : o.text = upto pre ++ c.opening.text)
    (hfurthest : ∀ o' q' m' r', o'.shape = o.shape → Reads (joined (pre ++ c :: post)) o' q' m' r' →
      o'.text.length ≤ o.text.length) :
    o.shape.find? (joined (pre ++ c :: post)) =
      some ⟨upto pre ++ c.opening.text ++ [c.quote], c.module ++ x, c.quote, after v⟩ := by
  have hc := hcs c (by simp)
  have hsource : joined (pre ++ c :: post) = o.text ++ c.quote :: ((c.module ++ x) ++ c.quote :: after v) := by
    rw [joined_split, htext, ← h.cut]
    simp [Clause.text]
  have hmodule := h.newline_not_mem hc fun d hd => hcs d (by simp [hd])
  have hgreatest : Greatest (joined (pre ++ c :: post)) o c.quote (c.module ++ x) (after v) :=
    ⟨⟨hsource, ho, hc.quote, by simp [hc.module_ne_nil], hmodule⟩, hfurthest,
      fun y z hyz => absurd (by simp [hyz]) h.last⟩
  rw [hgreatest.find?, htext]

end Span

end Clause

end Rehome.Statement
