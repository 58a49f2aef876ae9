import Rehome.Proofs.Statement.Breaks
import Rehome.Proofs.Text.LineEnds

/-! Statements and carriage returns. In front of a line feed a carriage return is one more character for bindings,
and it is one more blank. The patterns take one blank at a time, so they may part on whether a line end is one or
two; where no opening needs a line end for its blank, they find the same statements. -/

namespace Rehome.Statement

/-- No opening has a line end for the blank behind its keyword or behind its `from`, nor a line end alone between a
keyword and `from`. No line at all ends in the letters of a keyword, not even a comment. -/
structure Unbroken (t : Text) : Prop where
  parted : ∀ a b, t = a ++ '\n' :: b → Parted a b
  bound : ∀ a b, t = a ++ '\n' :: b → ∀ (s : Shape) c d q, Text.isBlank c → Text.isBlank d → IsQuote q →
    "from".toList ++ [d, q] <+: b → ¬ s.keyword ++ [c] <:+ a

theorem Shape.return_not_mem_keyword (s : Shape) : '\r' ∉ s.keyword := by cases s <;> decide

theorem IsQuote.ne_return {q : Char} (h : IsQuote q) : q ≠ '\r' := by
  rcases h with rfl | rfl <;> decide

/-- What is found, with a carriage return in each line end. -/
def Found.crlf (g : Found) : Found := { g with lead := g.lead.crlf, rest := g.rest.crlf }

namespace Opening

/-- The opening, with a carriage return in the line end that its bindings may stop at. -/
def crlf : Opening → Opening
  | bare gap => bare gap
  | binding e gap u before after => binding e gap (if before = '\n' then u ++ ['\r'] else u) before after

theorem shape_crlf (o : Opening) : o.crlf.shape = o.shape := by cases o <;> rfl

/-- Bindings with the blanks around them, where a line end stands before the last or nowhere. -/
theorem bindings_of_crlf {a u : Text} {gap before : Char} (hu : u ≠ []) (hn : '\n' ∉ u)
    (h : a.crlf = gap :: (u ++ [before])) :
    ∃ z, a = gap :: (z ++ [before]) ∧ '\n' ∉ z ∧ u = if before = '\n' then z ++ ['\r'] else z := by
  cases a with
  | nil => cases h
  | cons d a =>
  have hd : d ≠ '\n' := by
    rintro rfl
    obtain ⟨c, u, rfl⟩ := List.exists_cons_of_ne_nil hu
    obtain ⟨rfl, -⟩ := List.cons.inj (List.cons.inj h).2
    simp at hn
  rw [Text.crlf_cons hd] at h
  obtain ⟨rfl, hrest⟩ := List.cons.inj h
  rcases List.eq_nil_or_concat a with rfl | ⟨z, c, rfl⟩
  · simp at hrest
  rw [List.concat_eq_append, Text.crlf_append] at hrest
  by_cases hc : c = '\n'
  · rw [hc, Text.crlf_newline, Text.crlf_nil, List.append_cons] at hrest
    obtain ⟨rfl, hbefore⟩ := List.append_inj' hrest rfl
    obtain rfl := (List.cons.inj hbefore).1
    have hz : '\n' ∉ z := fun hc => hn (List.mem_append_left _ (Text.newline_mem_crlf_iff.2 hc))
    exact ⟨z, by simp [hc], hz, by rw [Text.crlf_eq_self hz, if_pos rfl]⟩
  · rw [Text.crlf_cons hc, Text.crlf_nil] at hrest
    obtain ⟨rfl, hbefore⟩ := List.append_inj' hrest rfl
    obtain rfl := (List.cons.inj hbefore).1
    have hz : '\n' ∉ z := fun hc => hn (Text.newline_mem_crlf_iff.2 hc)
    exact ⟨z, by simp, hz, by rw [Text.crlf_eq_self hz, if_neg hc]⟩

end Opening

namespace Unbroken

variable {t v m r : Text} {o : Opening} {q : Char} {s : Shape} {f : Text → Text}

theorem of_framedLines {t' : Text} (h : Unbroken t) (hf : FramedLines t t') : Unbroken t' where
  parted a' b' ht' := by
    rw [ht'] at hf
    obtain ⟨a, b, rfl, ha, hb⟩ := hf.split
    exact (h.parted a b rfl).of_framedLines ha hb
  bound a' b' ht' s c d q hc hd hq hp hs := by
    rw [ht'] at hf
    obtain ⟨a, b, rfl, ha, hb⟩ := hf.split
    have hkeyword : QuoteFree (s.keyword ++ [c]) :=
      s.quoteFree_keyword.append (QuoteFree.cons_blank hc (t := []) (by simp [QuoteFree]))
    exact h.bound a b rfl s c d q hc hd hq (hb.of_isPrefix (quoteFree_dropLast_from hd) hp) (ha.of_suffix hkeyword hs)

theorem of_suffix (h : Unbroken t) (hv : v <:+ t) : Unbroken v := by
  obtain ⟨w, rfl⟩ := hv
  have hmore {x a : Text} (hx : x <:+ a) : x <:+ w ++ a := hx.trans (List.suffix_append w a)
  refine ⟨fun a b hab => ?_, fun a b hab s c d q hc hd hq hp hs => ?_⟩
  · obtain ⟨hgap, hafter⟩ := h.parted (w ++ a) b (by rw [hab, List.append_assoc])
    exact ⟨fun s hs => hgap s (hmore hs), fun c q hc hq hp hs => hafter c q hc hq hp (hmore hs)⟩
  · exact h.bound (w ++ a) b (by rw [hab, List.append_assoc]) s c d q hc hd hq hp (hmore hs)

/-- The blanks of an opening in the text are no line ends, but for the one in front of its `from`. -/
theorem gaps (h : Unbroken v) (hr : Reads v o q m r) :
    match o with
    | .bare gap => gap ≠ '\n'
    | .binding _ gap _ _ after => gap ≠ '\n' ∧ after ≠ '\n' := by
  obtain ⟨hsource, ho, hq, -, -⟩ := hr
  cases o with
  | bare gap =>
    rintro rfl
    exact (h.parted Shape.importBare.keyword _ (by simpa [Opening.text, Opening.shape] using hsource)).gap
      Shape.importBare (List.suffix_refl _)
  | binding e gap u before after =>
    refine ⟨?_, ?_⟩
    · rintro rfl
      exact (h.parted (Shape.binding e).keyword _ (by simpa [Opening.text, Opening.shape] using hsource)).gap
        (.binding e) (List.suffix_refl _)
    · rintro rfl
      obtain ⟨-, -, -, hbefore, -⟩ := ho
      have hsplit : v = ((Shape.binding e).keyword ++ gap :: u ++ before :: "from".toList) ++
          '\n' :: (q :: (m ++ q :: r)) := by
        simpa [Opening.text, Opening.shape] using hsource
      exact (h.parted _ _ hsplit).after before q hbefore hq ⟨m ++ q :: r, rfl⟩ (List.suffix_append _ _)

theorem text_crlf (h : Unbroken v) (hr : Reads v o q m r) : o.crlf.text = o.text.crlf := by
  have hgaps := h.gaps hr
  cases o with
  | bare gap =>
    rw [Opening.crlf, Opening.text, Opening.shape, Text.crlf_append, Text.crlf_cons hgaps,
      Text.crlf_eq_self (Shape.newline_not_mem_keyword _), Text.crlf_nil]
  | binding e gap u before after =>
    obtain ⟨hgap, hafter⟩ := hgaps
    obtain ⟨-, -, hn, -, -⟩ := hr.opening
    have hfrom : Text.crlf "from".toList = "from".toList := by decide
    have hend : Text.crlf ("from".toList ++ [after]) = "from".toList ++ [after] := by
      rw [Text.crlf_append, hfrom, Text.crlf_cons hafter, Text.crlf_nil]
    have hstart : Text.crlf ((Shape.binding e).keyword ++ gap :: u) = (Shape.binding e).keyword ++ gap :: u := by
      rw [Text.crlf_append, Text.crlf_eq_self (Shape.newline_not_mem_keyword _), Text.crlf_cons hgap,
        Text.crlf_eq_self hn]
    rw [Opening.crlf, Opening.text_binding, Opening.text_binding, Text.crlf_append, hstart]
    split
    · next hbefore =>
      rw [hbefore, Text.crlf_newline, hend]
      simp
    · next hbefore => rw [Text.crlf_cons hbefore, hend]

/-- What is read in the text can be read with carriage returns. -/
theorem reads_crlf (h : Unbroken v) (hr : Reads v o q m r) : Reads v.crlf o.crlf q m r.crlf where
  source := by
    rw [h.text_crlf hr, hr.source, Text.crlf_append, Text.crlf_cons hr.quote.ne_newline, Text.crlf_append,
      Text.crlf_eq_self hr.inline, Text.crlf_cons hr.quote.ne_newline]
  opening := by
    have ho := hr.opening
    cases o with
    | bare gap => exact ho
    | binding e gap u before after =>
      obtain ⟨hgap, hu, hn, hbefore, hafter⟩ := ho
      refine ⟨hgap, ?_, ?_, hbefore, hafter⟩
      · split
        · simp
        · exact hu
      · split
        · simpa using hn
        · exact hn
  quote := hr.quote
  module_ne_nil := hr.module_ne_nil
  inline := hr.inline

/-- What is read with carriage returns can be read in the text. -/
theorem reads_of_crlf (h : Unbroken v) (hv : '\r' ∉ v) (hr : Reads v.crlf o q m r) :
    ∃ o' r', Reads v o' q m r' ∧ o = o'.crlf ∧ r = r'.crlf := by
  obtain ⟨hsource, ho, hq, hm, hn⟩ := hr
  obtain ⟨w, x, rfl, hw, hx⟩ := Text.cons_of_crlf hq.ne_return hq.ne_newline hsource
  obtain ⟨n, r, rfl, rfl, rfl⟩ := Text.cons_of_crlf hq.ne_return hq.ne_newline hx
  rw [Text.newline_mem_crlf_iff] at hn
  rw [Text.crlf_eq_self hn] at hm ⊢
  have hreturn : '\r' ∉ w := fun hc => hv (List.mem_append_left _ hc)
  cases o with
  | bare gap =>
    obtain ⟨w, rfl, hgap⟩ := Text.prefix_of_crlf (Shape.return_not_mem_keyword _) (Shape.newline_not_mem_keyword _) hw
    obtain ⟨rfl, -⟩ := Text.eq_singleton_of_crlf hgap
    exact ⟨.bare gap, r, ⟨rfl, ho, hq, hm, hn⟩, rfl, rfl⟩
  | binding e gap u before after =>
    obtain ⟨hgap, hu, hnu, hbefore, hafter⟩ := ho
    have htext : w.crlf = (Shape.binding e).keyword ++ gap :: (u ++ [before]) ++ "from".toList ++ [after] := by
      rw [hw]
      simp [Opening.text_binding]
    obtain ⟨a, b, rfl, ha, hb⟩ := Text.word_of_crlf (by decide) (by decide) (by decide) htext
    obtain ⟨rfl, -⟩ := Text.eq_singleton_of_crlf hb
    obtain ⟨a, rfl, hbindings⟩ :=
      Text.prefix_of_crlf (Shape.return_not_mem_keyword _) (Shape.newline_not_mem_keyword _) ha
    obtain ⟨z, rfl, hz, rfl⟩ := Opening.bindings_of_crlf hu hnu hbindings
    have hne : z ≠ [] := by
      rintro rfl
      by_cases hline : before = '\n'
      · exact h.bound ((Shape.binding e).keyword ++ [gap]) ("from".toList ++ [after] ++ q :: (n ++ q :: r))
          (by simp [hline]) (.binding e) gap after q hgap hafter hq ⟨n ++ q :: r, by simp⟩ (List.suffix_refl _)
      · exact hu (if_neg hline)
    exact ⟨.binding e gap z before after, r,
      ⟨by simp [Opening.text_binding], ⟨hgap, hne, hz, hbefore, hafter⟩, hq, hm, hn⟩, rfl, rfl⟩

/-- With carriage returns a pattern finds what it finds in the text. -/
theorem find?_crlf (h : Unbroken v) (hv : '\r' ∉ v) : s.find? v.crlf = (s.find? v).map Found.crlf := by
  rcases hfind : s.find? v with _ | g
  · refine find?_eq_none_iff.2 fun o q m r hs hr => ?_
    obtain ⟨o', r', hr', rfl, rfl⟩ := h.reads_of_crlf hv hr
    exact find?_eq_none_iff.1 hfind o' q m r' (o'.shape_crlf ▸ hs) hr'
  · obtain ⟨o, q, m, r, hr, rfl, rfl⟩ := greatest_of_find? hfind
    have hread := h.reads_crlf hr.toReads
    have hgreatest : Greatest v.crlf o.crlf q m r.crlf := by
      refine ⟨hread, fun o' q' m' r' hs hr' => ?_, fun x y hx => ?_⟩
      · obtain ⟨o'', r'', hr'', rfl, rfl⟩ := h.reads_of_crlf hv hr'
        rw [Opening.shape_crlf, Opening.shape_crlf] at hs
        have hle := hr.furthest o'' q' m' r'' hs hr''
        have hprefix : o''.text <+: o.text := List.prefix_of_prefix_length_le
          ⟨_, hr''.source.symm⟩ ⟨_, hr.source.symm⟩ hle
        rw [h.text_crlf hr'', h.text_crlf hr.toReads]
        exact (Text.crlf_isPrefix hprefix).length_le
      · obtain ⟨x, y, rfl, rfl, rfl⟩ := Text.cons_of_crlf hr.quote.ne_return hr.quote.ne_newline hx
        exact Text.newline_mem_crlf_iff.2 (hr.last x y rfl)
    rw [← o.shape_crlf, hgreatest.find?, h.text_crlf hr.toReads]
    simp [Found.crlf, Text.crlf_cons hr.quote.ne_newline]

theorem mapModules_crlf (h : Unbroken t) (ht : '\r' ∉ t) (s : Shape) (hf : ∀ m, '\n' ∉ m → '\n' ∉ f m) :
    s.mapModules f t.crlf = (s.mapModules f t).crlf := by
  induction t using Shape.mapModules_induction (s := s) (f := f) with
  | nil => exact Shape.mapModules_nil
  | copied c t hfind ih =>
    have hrest := ih (h.of_suffix (List.suffix_cons c t)) fun hc => ht (List.mem_cons_of_mem c hc)
    by_cases hc : c = '\n'
    · rw [hc, Text.crlf_newline, Text.crlf_newline, Shape.mapModules_cons (Line.find?_blank (by decide) _),
        Shape.mapModules_cons (Line.find?_blank (by decide) _), hrest]
    · have hnone := h.find?_crlf (s := s) ht
      rw [hfind, Text.crlf_cons hc, Option.map_none] at hnone
      rw [Text.crlf_cons hc, Text.crlf_cons hc, Shape.mapModules_cons hnone, hrest]
  | found t g hfind ih =>
    have hsuffix := Shape.rest_suffix_of_find? hfind
    have hrest := ih (h.of_suffix hsuffix) fun hc => ht (hsuffix.subset hc)
    have hfound := h.find?_crlf (s := s) ht
    rw [hfind, Option.map_some] at hfound
    obtain ⟨⟨hq, -, hn, -⟩, -⟩ := Shape.opening_of_find? hfind
    rw [Shape.mapModules_of_find? hfound, Text.crlf_append, Text.crlf_append, Text.crlf_eq_self (hf _ hn),
      Text.crlf_cons (IsQuote.ne_newline hq), ← hrest]
    rfl

end Unbroken

theorem Shape.not_mem_mapModules {s : Shape} {f : Text → Text} {c : Char} {t : Text} (hf : ∀ m, c ∉ m → c ∉ f m)
    (ht : c ∉ t) : c ∉ s.mapModules f t := by
  induction t using mapModules_induction (s := s) (f := f) with
  | nil => exact ht
  | copied d t _ ih =>
    rw [List.mem_cons, not_or] at ht ⊢
    exact ⟨ht.1, ih ht.2⟩
  | found t g hfind ih =>
    have hrest := ih fun hc => ht ((rest_suffix_of_find? hfind).subset hc)
    rw [Faithful.find s hfind, Found.source] at ht
    simp only [List.mem_append, List.mem_cons, not_or] at ht ⊢
    exact ⟨⟨ht.1.1, hf _ ht.1.2⟩, ht.2.1, hrest⟩

/-- Where no opening needs a line end, the passes commute with a change of the line ends. -/
theorem resolveAll_crlf {current t : Text} (hn : '\n' ∉ current) (hr : '\r' ∉ current) (ht : '\r' ∉ t)
    (h : Unbroken t) : resolveAll current t.crlf = (resolveAll current t).crlf ∧ '\r' ∉ resolveAll current t := by
  have hf (m : Text) : '\n' ∉ m → '\n' ∉ Reference.resolve current m := newline_not_mem_resolve hn
  have hreturn (m : Text) (hm : '\r' ∉ m) : '\r' ∉ Reference.resolve current m := fun hc => by
    rcases mem_resolve hc with hc | hc | hc | hc
    · cases hc
    · cases hc
    · exact hr hc
    · exact hm hc
  have hpass {t : Text} (h : Unbroken t) (s : Shape) := h.of_framedLines (s.framedLines_mapModules hf t)
  have hnone {t : Text} (ht : '\r' ∉ t) (s : Shape) := s.not_mem_mapModules hreturn ht
  have h₁ := hpass h .importFrom
  have h₂ := hpass h₁ .importBare
  have ht₁ := hnone ht .importFrom
  have ht₂ := hnone ht₁ .importBare
  simp only [resolveAll, List.foldl_cons, List.foldl_nil]
  rw [h.mapModules_crlf ht _ hf, h₁.mapModules_crlf ht₁ _ hf, h₂.mapModules_crlf ht₂ _ hf]
  exact ⟨rfl, hnone ht₂ .exportFrom⟩

end Rehome.Statement
