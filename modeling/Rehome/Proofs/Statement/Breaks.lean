import Rehome.Proofs.Statement.Frame
import Rehome.Proofs.Statement.Reading
import Rehome.Proofs.Text.Cut

/-! Statements and line ends. A pattern takes a line feed for a blank, so the words of a statement may run over
the end of a line. Where none do, what stands before a line end and what stands behind it are treated alone. -/

namespace Rehome

namespace Text

theorem lines_append_newline (t u : Text) : lines (t ++ '\n' :: u) = lines t ++ lines u :=
  List.splitOn_append_cons_self _ _

theorem lines_eq_singleton {t : Text} (h : '\n' ∉ t) : lines t = [t] := List.splitOn_eq_singleton h

/-- A text is one line, or a text and its last line. -/
theorem exists_last_line (t : Text) : ∃ l, '\n' ∉ l ∧ (t = l ∨ ∃ u, t = u ++ '\n' :: l) := by
  induction t with
  | nil => exact ⟨[], by simp, .inl rfl⟩
  | cons c t ih =>
    obtain ⟨l, hl, rfl | ⟨u, rfl⟩⟩ := ih
    · by_cases hc : c = '\n'
      · exact ⟨t, hl, .inr ⟨[], by simp [hc]⟩⟩
      · exact ⟨c :: t, by simp [Ne.symm hc, hl], .inl rfl⟩
    · exact ⟨l, hl, .inr ⟨c :: u, rfl⟩⟩

end Text

namespace Statement

/-! ### Text without quotes at a line end -/

theorem exists_first_quote {t : Text} (h : ¬ QuoteFree t) : ∃ a q b, t = a ++ q :: b ∧ QuoteFree a ∧ IsQuote q := by
  induction t with
  | nil => simp [QuoteFree] at h
  | cons c t ih =>
    by_cases hc : IsQuote c
    · exact ⟨[], c, t, rfl, by simp [QuoteFree], hc⟩
    · obtain ⟨a, q, b, rfl, ha, hq⟩ := ih fun ht => h (List.forall_mem_cons.2 ⟨hc, ht⟩)
      exact ⟨c :: a, q, b, rfl, List.forall_mem_cons.2 ⟨hc, ha⟩, hq⟩

theorem exists_last_quote {t : Text} (h : ¬ QuoteFree t) : ∃ a q b, t = a ++ q :: b ∧ IsQuote q ∧ QuoteFree b := by
  induction t with
  | nil => simp [QuoteFree] at h
  | cons c t ih =>
    by_cases ht : QuoteFree t
    · have hc : IsQuote c := by
        by_contra hc
        exact h (List.forall_mem_cons.2 ⟨hc, ht⟩)
      exact ⟨[], c, t, rfl, hc, ht⟩
    · obtain ⟨a, q, b, rfl, hq, hb⟩ := ih ht
      exact ⟨c :: a, q, b, rfl, hq, hb⟩

namespace Framed

variable {l l' x : Text}

theorem eq_of_quoteFree (h : Framed l l') (hl : QuoteFree l) : l' = l := by
  have hnone : l.countP (IsQuote ·) = 0 := List.countP_eq_zero.2 (fun c hc => by simpa using hl c hc)
  exact h.few (by omega)

theorem eq_of_quoteFree_right (h : Framed l l') (hl' : QuoteFree l') : l' = l := by
  by_cases hl : QuoteFree l
  · exact h.eq_of_quoteFree hl
  · obtain ⟨a, q, b, rfl, ha, hq⟩ := exists_first_quote hl
    exact absurd hq (hl' q ((h.start a q b rfl ha hq).subset (by simp)))

/-- A beginning up to the first quote was there before. -/
theorem of_isPrefix (h : Framed l l') (hx : QuoteFree x.dropLast) (hp : x <+: l') : x <+: l := by
  by_cases hl : QuoteFree l
  · exact h.eq_of_quoteFree hl ▸ hp
  obtain ⟨a, q, b, rfl, ha, hq⟩ := exists_first_quote hl
  have hbegin : a ++ [q] <+: a ++ q :: b := ⟨b, by simp⟩
  rcases List.prefix_or_prefix_of_prefix hp (h.start a q b rfl ha hq) with hp | ⟨y, rfl⟩
  · exact hp.trans hbegin
  · by_cases hy : y = []
    · simp [hy]
    · rw [List.dropLast_append_of_ne_nil hy] at hx
      exact absurd hq (hx q (by simp))

/-- An end behind the last quote was there before. -/
theorem of_suffix (h : Framed l l') (hx : QuoteFree x) (hs : x <:+ l') : x <:+ l := by
  by_cases hl : QuoteFree l
  · exact h.eq_of_quoteFree hl ▸ hs
  obtain ⟨a, q, b, rfl, hq, hb⟩ := exists_last_quote hl
  rcases List.suffix_or_suffix_of_suffix hs (h.ending a q b rfl hq hb) with hs | hs
  · exact hs.trans (List.suffix_append _ _)
  · exact absurd hq (hx q (hs.subset List.mem_cons_self))

end Framed

namespace FramedLines

variable {t t' u' v' x y : Text}

/-- A line end stands in both texts, and what is around it stays framed. -/
theorem split (h : FramedLines t (u' ++ '\n' :: v')) :
    ∃ u v, t = u ++ '\n' :: v ∧ FramedLines u u' ∧ FramedLines v v' := by
  rw [FramedLines, Text.lines_append_newline] at h
  have hu := List.forall₂_take_append _ _ _ h
  have hv := List.forall₂_drop_append _ _ _ h
  have hcut := List.take_append_drop u'.lines.length t.lines
  generalize t.lines.take u'.lines.length = us at hu hcut
  generalize t.lines.drop u'.lines.length = vs at hv hcut
  have hne {ls : List Text} {w : Text} (hw : List.Forall₂ Framed ls w.lines) : ls ≠ [] := by
    rintro rfl
    exact List.splitOn_ne_nil '\n' w (List.forall₂_nil_left_iff.1 hw)
  have hline {ls : List Text} (hls : ∀ l ∈ ls, l ∈ us ++ vs) : ∀ l ∈ ls, '\n' ∉ l := fun l hl =>
    Text.not_mem_of_mem_splitOn (t := t) (by rw [← Text.lines, ← hcut]; exact hls l hl)
  refine ⟨['\n'].intercalate us, ['\n'].intercalate vs, ?_, ?_, ?_⟩
  · rw [← Text.intercalate_append (hne hu) (hne hv), hcut]
    exact (List.intercalate_splitOn '\n').symm
  · rw [FramedLines, Text.lines, List.splitOn_intercalate _ (hline fun l => List.mem_append_left _) (hne hu)]
    exact hu
  · rw [FramedLines, Text.lines, List.splitOn_intercalate _ (hline fun l => List.mem_append_right _) (hne hv)]
    exact hv

theorem framed (h : FramedLines t t') (hn : '\n' ∉ t') : Framed t t' ∧ '\n' ∉ t := by
  rw [FramedLines, Text.lines_eq_singleton hn, List.forall₂_cons_right_iff] at h
  obtain ⟨l, ls, hl, hls, ht⟩ := h
  rw [List.forall₂_nil_right_iff.1 hls] at ht
  obtain rfl : t = l := by
    have hwhole : ['\n'].intercalate t.lines = t := List.intercalate_splitOn '\n'
    rw [ht, List.intercalate_singleton] at hwhole
    exact hwhole.symm
  exact ⟨hl, Text.not_mem_of_mem_splitOn (t := t) (by rw [← Text.lines, ht]; exact List.mem_singleton_self _)⟩

theorem of_suffix (h : FramedLines t t') (hx : QuoteFree x) (hs : x <:+ t') : x <:+ t := by
  induction hlen : x.length using Nat.strong_induction_on generalizing x t t' with
  | _ n ih =>
    obtain ⟨z, rfl⟩ := hs
    obtain ⟨l, hl, rfl | ⟨y, rfl⟩⟩ := x.exists_last_line
    · obtain ⟨k, hk, rfl | ⟨w, rfl⟩⟩ := Text.exists_last_line z
      · exact (h.framed (by simp [hk, hl])).1.of_suffix hx (List.suffix_append _ _)
      · rw [List.append_assoc, List.cons_append] at h
        obtain ⟨u, v, rfl, -, hv⟩ := h.split
        have hend := (hv.framed (by simp [hk, hl])).1.of_suffix hx (List.suffix_append _ _)
        exact hend.trans ((List.suffix_cons _ _).trans (List.suffix_append _ _))
    · -- the last line of the end is a whole line, and the rest ends the one before
      rw [← List.append_assoc] at h
      obtain ⟨u, v, rfl, hu, hv⟩ := h.split
      obtain rfl := (hv.framed hl).1.eq_of_quoteFree_right fun c hc => hx c (by simp [hc])
      have hy : QuoteFree y := fun c hc => hx c (List.mem_append_left _ hc)
      obtain ⟨w, rfl⟩ := ih y.length (by simp at hlen; omega) hu hy (List.suffix_append z y) rfl
      exact ⟨w, by simp⟩

theorem of_isPrefix (h : FramedLines t t') (hx : QuoteFree x.dropLast) (hp : x <+: t') : x <+: t := by
  induction hlen : x.length using Nat.strong_induction_on generalizing x t t' with
  | _ n ih =>
    obtain ⟨z, rfl⟩ := hp
    by_cases hn : '\n' ∈ x
    · -- the first line of the beginning is a whole line, and the rest starts the next
      obtain ⟨a, b, rfl, ha⟩ := List.eq_append_cons_of_mem hn
      rw [List.append_assoc, List.cons_append] at h
      obtain ⟨u, v, rfl, hu, hv⟩ := h.split
      have hfirst : QuoteFree a := by
        rw [List.dropLast_append_of_ne_nil (List.cons_ne_nil _ _)] at hx
        exact fun c hc => hx c (List.mem_append_left _ hc)
      have hrest : QuoteFree b.dropLast := by
        cases b with
        | nil => simp [QuoteFree]
        | cons c b =>
          rw [List.dropLast_append_of_ne_nil (List.cons_ne_nil _ _), List.dropLast_cons_cons] at hx
          exact fun d hd => hx d (List.mem_append_right _ (List.mem_cons_of_mem _ hd))
      obtain rfl := (hu.framed ha).1.eq_of_quoteFree_right hfirst
      obtain ⟨w, rfl⟩ := ih b.length (by simp at hlen; omega) hv hrest (List.prefix_append b z) rfl
      exact ⟨w, by simp⟩
    · by_cases hz : '\n' ∈ z
      · obtain ⟨a, b, rfl, ha⟩ := List.eq_append_cons_of_mem hz
        rw [← List.append_assoc] at h
        obtain ⟨u, v, rfl, hu, -⟩ := h.split
        have hframed := (hu.framed (by simp [hn, ha])).1
        exact (hframed.of_isPrefix hx (List.prefix_append x a)).trans (List.prefix_append u _)
      · exact (h.framed (by simp [hn, hz])).1.of_isPrefix hx (List.prefix_append x z)

end FramedLines

/-! ### Two texts with a line end between them -/

/-- No keyword has open bindings at the end of the text, and no pass can change that: in the last line there is no
keyword with a blank and more behind it, and no quote at all, whatever it is there for. -/
structure Settled (t : Text) : Prop where
  quoteFree : ∀ l, l <:+ t → '\n' ∉ l → QuoteFree l
  closed : ∀ (s : Shape) c l, Text.isBlank c → l ≠ [] → '\n' ∉ l → ¬ s.keyword ++ c :: l <:+ t

/-- The line end between the texts is neither the blank behind a keyword nor the one behind a `from`. Only letters
are looked at: a comment that ends in `export` bars the line end like the keyword, whatever the second text is. -/
structure Parted (a b : Text) : Prop where
  gap : ∀ s : Shape, ¬ s.keyword <:+ a
  after : ∀ c q, Text.isBlank c → IsQuote q → [q] <+: b → ¬ c :: "from".toList <:+ a

/-- No opening runs over the line end between the texts, which could also be the blank in front of its `from`: the
first text does not end in the letters of a keyword, and where the second starts like the end of an opening, the last
line of the first is settled. -/
structure Apart (a b : Text) : Prop extends Parted a b where
  before : ∀ c q, Text.isBlank c → IsQuote q → "from".toList ++ [c, q] <+: b → Settled a

theorem QuoteFree.append {t u : Text} (ht : QuoteFree t) (hu : QuoteFree u) : QuoteFree (t ++ u) :=
  List.forall_mem_append.2 ⟨ht, hu⟩

theorem QuoteFree.cons_blank {c : Char} {t : Text} (hc : Text.isBlank c) (ht : QuoteFree t) : QuoteFree (c :: t) :=
  List.forall_mem_cons.2 ⟨fun hq => IsQuote.not_isBlank hq hc, ht⟩

theorem Shape.quoteFree_keyword (s : Shape) : QuoteFree s.keyword := fun c hc => (s.unquoted_keyword c hc).2

theorem quoteFree_from : QuoteFree "from".toList := by decide

theorem Settled.of_framedLines {t t' : Text} (h : Settled t) (hf : FramedLines t t') : Settled t' := by
  have hline (l : Text) (hl : l <:+ t') (hn : '\n' ∉ l) : QuoteFree l := by
    obtain ⟨k', hk', rfl | ⟨u', rfl⟩⟩ := t'.exists_last_line
    · obtain ⟨hframed, hn⟩ := hf.framed hk'
      rw [hframed.eq_of_quoteFree (h.quoteFree t (List.suffix_refl t) hn)] at hl
      exact h.quoteFree l hl (fun hc => hn (hl.subset hc))
    · obtain ⟨u, k, rfl, -, hk⟩ := hf.split
      obtain ⟨hframed, hn'⟩ := hk.framed hk'
      have hlast : k <:+ u ++ '\n' :: k := (List.suffix_cons _ _).trans (List.suffix_append _ _)
      have hquote := h.quoteFree k hlast hn'
      rw [hframed.eq_of_quoteFree hquote] at hl
      rcases List.suffix_or_suffix_of_suffix hl (List.suffix_append u' ('\n' :: k)) with hl | hl
      · rcases List.suffix_cons_iff.1 hl with rfl | hl
        · simp at hn
        · exact fun c hc => hquote c (hl.subset hc)
      · exact absurd (hl.subset List.mem_cons_self) hn
  refine ⟨hline, fun s c l hc hl hn hs => h.closed s c l hc hl hn (hf.of_suffix ?_ hs)⟩
  have hquote := hline l ((List.suffix_cons c l).trans ((List.suffix_append _ _).trans hs)) hn
  exact s.quoteFree_keyword.append (hquote.cons_blank hc)

theorem quoteFree_dropLast_from {c q : Char} (hc : Text.isBlank c) : QuoteFree ("from".toList ++ [c, q]).dropLast := by
  simpa using quoteFree_from.append (QuoteFree.cons_blank hc (t := []) (by simp [QuoteFree]))

theorem Parted.of_framedLines {a b a' b' : Text} (h : Parted a b) (ha : FramedLines a a') (hb : FramedLines b b') :
    Parted a' b' where
  gap s hs := h.gap s (ha.of_suffix s.quoteFree_keyword hs)
  after c q hc hq hp hs :=
    h.after c q hc hq (hb.of_isPrefix (by simp [QuoteFree]) hp) (ha.of_suffix (quoteFree_from.cons_blank hc) hs)

namespace Apart

variable {a b a' b' : Text}

theorem of_framedLines (h : Apart a b) (ha : FramedLines a a') (hb : FramedLines b b') : Apart a' b' where
  toParted := h.toParted.of_framedLines ha hb
  before c q hc hq hp := (h.before c q hc hq (hb.of_isPrefix (quoteFree_dropLast_from hc) hp)).of_framedLines ha

variable {v m r : Text} {q : Char} {o : Opening} {s : Shape} {f : Text → Text}

/-- What can be read from some place of the first text on has its opening there, and so its module, too. -/
theorem reads (h : Apart a b) (hv : v <:+ a) (hr : Reads (v ++ '\n' :: b) o q m r) :
    ∃ r', r = r' ++ '\n' :: b ∧ Reads v o q m r' := by
  obtain ⟨hsource, ho, hq, hm, hn⟩ := hr
  rcases List.append_eq_append_iff.1 hsource with ⟨x, htext, hx⟩ | ⟨x, rfl, hx⟩
  · cases x with
    | nil => exact absurd (List.cons.inj hx).1.symm hq.ne_newline
    | cons c x =>
    obtain ⟨rfl, rfl⟩ := List.cons.inj hx
    -- the line end would be one of the blanks of the opening
    cases o with
    | bare gap =>
      rcases cut_cases htext (Opening.bare gap).shape.newline_not_mem_keyword with ⟨rfl, -⟩ | ⟨z, -, hz⟩
      · exact absurd hv (h.gap _)
      · simp at hz
    | binding e gap u before after =>
      obtain ⟨hgap, hu, hnu, hbefore, hafter⟩ := ho
      rw [Opening.text, List.append_assoc, List.append_assoc] at htext
      rcases cut_cases htext (Opening.binding e gap u before after).shape.newline_not_mem_keyword with
        ⟨rfl, -⟩ | ⟨z, rfl, hz⟩
      · exact absurd hv (h.gap _)
      rcases cut_cases hz hnu with ⟨rfl, -, rfl⟩ | ⟨z', rfl, hz'⟩
      · have hfrom : "from".toList ++ [after, q] <+: "from".toList ++ [after] ++ q :: (m ++ q :: r) :=
          ⟨m ++ q :: r, by simp⟩
        exact absurd hv ((h.before after q hafter hq hfrom).closed _ gap z hgap hu hnu)
      rcases cut_cases hz' (by decide) with ⟨rfl, -, rfl⟩ | ⟨z'', -, hz''⟩
      · have hend : before :: "from".toList <:+ (Opening.binding e gap u before after).shape.keyword ++
            gap :: (u ++ before :: "from".toList) :=
          ⟨(Opening.binding e gap u before after).shape.keyword ++ gap :: u, by simp⟩
        exact absurd (hend.trans hv) (h.after before q hbefore hq ⟨m ++ q :: r, rfl⟩)
      · simp at hz''
  · cases x with
    | nil => exact absurd (List.cons.inj hx).1 hq.ne_newline
    | cons c x =>
    obtain ⟨rfl, hmodule⟩ := List.cons.inj hx
    change m ++ q :: r = x ++ '\n' :: b at hmodule
    rcases cut_cases hmodule hn with ⟨-, rfl, -⟩ | ⟨z, rfl, rfl⟩
    · exact absurd rfl hq.ne_newline
    · exact ⟨z, rfl, ⟨rfl, ho, hq, hm, hn⟩⟩

/-- A pattern finds from there what it finds in the first text alone. -/
theorem find?_append (h : Apart a b) (hv : v <:+ a) :
    s.find? (v ++ '\n' :: b) = (s.find? v).map fun g => { g with rest := g.rest ++ '\n' :: b } := by
  rcases hfind : s.find? v with _ | g
  · refine find?_eq_none_iff.2 fun o q m r hs hr => ?_
    obtain ⟨r', -, hr'⟩ := h.reads hv hr
    exact find?_eq_none_iff.1 hfind o q m r' hs hr'
  · obtain ⟨o, q, m, r, hr, rfl, rfl⟩ := greatest_of_find? hfind
    have hread : Reads (v ++ '\n' :: b) o q m (r ++ '\n' :: b) :=
      { hr.toReads with source := by rw [hr.source]; simp }
    refine Greatest.find? ⟨hread, fun o' q' m' r' hs hr' => ?_, fun x y hx => ?_⟩
    · obtain ⟨r'', -, hr''⟩ := h.reads hv hr'
      exact hr.furthest o' q' m' r'' hs hr''
    · by_contra hn
      rcases cut_cases hx.symm hn with ⟨-, hq, -⟩ | ⟨z, rfl, -⟩
      · exact hr.quote.ne_newline hq.symm
      · exact hn (hr.last x z rfl)

theorem mapModules (h : Apart a b) (s : Shape) (f : Text → Text) :
    s.mapModules f (a ++ '\n' :: b) = s.mapModules f a ++ '\n' :: s.mapModules f b := by
  have hpass (t : Text) : t <:+ a →
      s.mapModules f (t ++ '\n' :: b) = s.mapModules f t ++ '\n' :: s.mapModules f b := by
    induction t using Shape.mapModules_induction (s := s) (f := f) with
    | nil => exact fun _ => Line.mapModules_newline b
    | copied c t hfind ih =>
      intro ht
      have hnone : s.find? (c :: t ++ '\n' :: b) = none := by rw [h.find?_append ht, hfind, Option.map_none]
      exact (Shape.mapModules_cons hnone).trans (congrArg (c :: ·) (ih ((List.suffix_cons c t).trans ht)))
    | found t g hfind ih =>
      intro ht
      have hfound : s.find? (t ++ '\n' :: b) = some { g with rest := g.rest ++ '\n' :: b } := by
        rw [h.find?_append ht, hfind, Option.map_some]
      rw [Shape.mapModules_of_find? hfound, ih ((Shape.rest_suffix_of_find? hfind).trans ht)]
      simp
  exact hpass a (List.suffix_refl a)

end Apart

/-- Around a line end that no opening runs over, the two sides are resolved alone. -/
theorem resolveAll_append_newline {current a b : Text} (hc : '\n' ∉ current) (h : Apart a b) :
    resolveAll current (a ++ '\n' :: b) = resolveAll current a ++ '\n' :: resolveAll current b := by
  have hframed (s : Shape) (t : Text) := s.framedLines_mapModules (fun _ => newline_not_mem_resolve hc) t
  have hpass {a b : Text} (h : Apart a b) (s : Shape) :
      Apart (s.mapModules (Reference.resolve current) a) (s.mapModules (Reference.resolve current) b) :=
    h.of_framedLines (hframed s a) (hframed s b)
  have h₁ := hpass h .importFrom
  have h₂ := hpass h₁ .importBare
  simp only [resolveAll, List.foldl_cons, List.foldl_nil]
  rw [h.mapModules, h₁.mapModules, h₂.mapModules]

/-- Braces on lines of their own keep the keyword and the `from` behind them apart. -/
theorem resolveAll_append_newline_braces :
    let a : Text := "export * from './x';\nimport \x7b\n  X,\n\x7d".toList
    let b : Text := "from './y'".toList
    Apart a b ∧ resolveAll "ns/a".toList (a ++ '\n' :: b) =
      "export * from 'ns/x';\nimport \x7b\n  X,\n\x7d\nfrom './y'".toList := by
  intro a b
  have hquote : ∀ l ∈ a.tails, '\n' ∈ l ∨ QuoteFree l := by decide
  have hclosed (s : Shape) : ∀ l ∈ a.tails, s.keyword <+: l → '\n' ∈ l.drop 7 := by cases s <;> decide
  have hsettled : Settled a :=
    { quoteFree := fun l hl hn => (hquote l ((List.mem_tails l a).2 hl)).resolve_left hn
      closed := fun s c l _ _ hn hs => by
        have hdrop : (s.keyword ++ c :: l).drop 7 = l := by
          simp [List.drop_append, List.drop_of_length_le, s.length_keyword]
        exact hn (hdrop ▸ hclosed s _ ((List.mem_tails _ a).2 hs) (List.prefix_append _ _)) }
  have happart : Apart a b :=
    { gap := by rintro (_ | _ | _) <;> decide
      before := fun _ _ _ _ _ => hsettled
      after := fun c q _ hq ⟨z, hz⟩ => by
        have hhead : some q = some 'f' := (congrArg List.head? hz).trans (by decide)
        exact absurd (Option.some.inj hhead ▸ hq) (by decide) }
  have hcurrent : '\n' ∉ "ns/a".toList := by decide
  exact ⟨happart, (resolveAll_append_newline hcurrent happart).trans (by decide +kernel)⟩

/-- A line feed is a blank to the patterns, so an export goes on over the end of its line. -/
theorem resolveAll_crosses_line :
    resolveAll "ns/a".toList ("export *".toList ++ '\n' :: "from './y'".toList) ≠
      resolveAll "ns/a".toList "export *".toList ++ '\n' :: resolveAll "ns/a".toList "from './y'".toList := by
  decide +kernel

end Statement

end Rehome
