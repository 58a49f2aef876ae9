import Mathlib.Data.List.Forall2
import Rehome.Proofs.Statement.Lines

/-! What the passes leave of any text at all. A module is replaced between two quotes of one line, so
line ends stay, and with them each line up to its first quote and from its last quote on. -/

namespace Rehome

namespace Text

/-- What stands between the line feeds of a text. -/
def lines (t : Text) : List Text := t.splitOn '\n'

theorem lines_cons_newline (t : Text) : lines ('\n' :: t) = [] :: lines t := by
  rw [lines, List.splitOn_cons_eq_if_modifyHead, if_pos (by decide)]
  rfl

/-- What holds no line feed comes to the first line of what follows it. -/
theorem exists_lines (t : Text) :
    ∃ l ls, lines t = l :: ls ∧ ∀ u : Text, '\n' ∉ u → lines (u ++ t) = (u ++ l) :: ls := by
  obtain ⟨l, ls, ht⟩ := List.exists_cons_of_ne_nil (List.splitOn_ne_nil '\n' t)
  refine ⟨l, ls, ht, fun u hu => ?_⟩
  induction u with
  | nil => exact ht
  | cons c u ih =>
    rw [List.mem_cons, not_or] at hu
    have hc : ¬ ((c == '\n') = true) := by simpa using Ne.symm hu.1
    rw [List.cons_append, lines, List.splitOn_cons_eq_if_modifyHead, if_neg hc, ← lines, ih hu.2]
    rfl

end Text

namespace Statement

/-- No quote occurs. -/
def QuoteFree (t : Text) : Prop := ∀ c ∈ t, ¬ IsQuote c

instance (t : Text) : Decidable (QuoteFree t) := List.decidableBAll (fun c => ¬ IsQuote c) t

/-- The line `l'` may differ from `l` between the first quote there and the last, and nowhere else. -/
structure Framed (l l' : Text) : Prop where
  start : ∀ a q b, l = a ++ q :: b → QuoteFree a → IsQuote q → a ++ [q] <+: l'
  ending : ∀ a q b, l = a ++ q :: b → IsQuote q → QuoteFree b → q :: b <:+ l'
  few : l.countP (IsQuote ·) < 2 → l' = l

namespace Framed

variable {l l' l'' : Text} {q : Char}

theorem refl (l : Text) : Framed l l := by
  refine ⟨?_, ?_, fun _ => rfl⟩
  · rintro a q b rfl - -
    exact ⟨b, by simp⟩
  · rintro a q b rfl - -
    exact List.suffix_append a _

theorem trans (h : Framed l l') (h' : Framed l' l'') : Framed l l'' := by
  refine ⟨fun a q b hl ha hq => ?_, fun a q b hl hq hb => ?_, fun hfew => ?_⟩
  · obtain ⟨b', hb'⟩ := h.start a q b hl ha hq
    exact h'.start a q b' (by simp [← hb']) ha hq
  · obtain ⟨a', ha'⟩ := h.ending a q b hl hq hb
    exact h'.ending a' q b ha'.symm hq hb
  · obtain rfl := h.few hfew
    exact h'.few hfew

theorem cons (c : Char) (h : Framed l l') : Framed (c :: l) (c :: l') := by
  refine ⟨fun a q b hl ha hq => ?_, fun a q b hl hq hb => ?_, fun hfew => ?_⟩
  · cases a with
    | nil =>
      obtain ⟨rfl, -⟩ := List.cons.inj hl
      exact ⟨l', rfl⟩
    | cons d a =>
      obtain ⟨rfl, hl'⟩ := List.cons.inj hl
      have hstart := h.start a q b hl' (fun e he => ha e (List.mem_cons_of_mem _ he)) hq
      exact List.cons_prefix_cons.2 ⟨rfl, hstart⟩
  · cases a with
    | nil =>
      obtain ⟨rfl, rfl⟩ := List.cons.inj hl
      have hnone : l.countP (IsQuote ·) = 0 :=
        List.countP_eq_zero.2 fun d hd => by simpa using hb d hd
      rw [h.few (by omega)]
    | cons d a =>
      obtain ⟨rfl, hl'⟩ := List.cons.inj hl
      exact (h.ending a q b hl' hq hb).trans (List.suffix_cons c l')
  · rw [List.countP_cons] at hfew
    rw [h.few (by omega)]

/-- What stands between two quotes may be replaced. -/
theorem span {m m' : Text} (hq : IsQuote q) (h : Framed l l') :
    Framed (q :: (m ++ q :: l)) (q :: (m' ++ q :: l')) := by
  refine ⟨fun a c b hl ha hc => ?_, fun a c b hl hc hb => ?_, fun hfew => ?_⟩
  · cases a with
    | nil =>
      obtain ⟨rfl, -⟩ := List.cons.inj hl
      exact ⟨_, rfl⟩
    | cons d a =>
      obtain ⟨rfl, -⟩ := List.cons.inj hl
      exact absurd hq (ha q List.mem_cons_self)
  · -- the last quote is not in front of the closing one
    have hlast : c :: b <:+ q :: l := by
      have hclosing : q :: l <:+ q :: (m ++ q :: l) := ⟨q :: m, rfl⟩
      rcases List.suffix_or_suffix_of_suffix ⟨a, hl.symm⟩ hclosing with h | h
      · exact h
      · rcases List.suffix_cons_iff.1 h with h | h
        · exact h ▸ List.suffix_refl _
        · exact absurd hq (hb q (h.subset List.mem_cons_self))
    obtain ⟨a', ha'⟩ := hlast
    have hending := (h.cons q).ending a' c b ha'.symm hc hb
    exact hending.trans ⟨q :: m', rfl⟩
  · have hquote : (decide (IsQuote q)) = true := by simpa using hq
    simp only [List.countP_cons, List.countP_append, hquote, if_true] at hfew
    omega

end Framed

/-- The texts have as many lines, and each line of the one is framed by that of the other in its place. -/
def FramedLines (t t' : Text) : Prop := List.Forall₂ Framed t.lines t'.lines

namespace FramedLines

variable {t t' t'' : Text} {q : Char}

theorem refl (t : Text) : FramedLines t t := List.forall₂_same.2 fun l _ => .refl l

theorem trans (h : FramedLines t t') (h' : FramedLines t' t'') : FramedLines t t'' := by
  unfold FramedLines at *
  generalize t.lines = ls at *
  generalize t'.lines = ls' at *
  generalize t''.lines = ls'' at *
  induction h generalizing ls'' with
  | nil => exact h'
  | cons hl _ ih =>
    cases h' with
    | cons hl' hls' => exact .cons (hl.trans hl') (ih _ hls')

theorem cons (c : Char) (h : FramedLines t t') : FramedLines (c :: t) (c :: t') := by
  unfold FramedLines at *
  by_cases hc : c = '\n'
  · rw [hc, Text.lines_cons_newline, Text.lines_cons_newline]
    exact .cons (.refl []) h
  · obtain ⟨l, ls, ht, happend⟩ := t.exists_lines
    obtain ⟨l', ls', ht', happend'⟩ := t'.exists_lines
    have hline : '\n' ∉ [c] := by simpa using Ne.symm hc
    rw [ht, ht', List.forall₂_cons] at h
    have hcons := happend [c] hline
    have hcons' := happend' [c] hline
    rw [List.singleton_append] at hcons hcons'
    rw [hcons, hcons']
    exact .cons (h.1.cons c) h.2

theorem append (u : Text) (h : FramedLines t t') : FramedLines (u ++ t) (u ++ t') := by
  induction u with
  | nil => exact h
  | cons c u ih => exact ih.cons c

/-- What stands between two quotes of one line may be replaced. -/
theorem span {m m' : Text} (hq : IsQuote q) (hm : '\n' ∉ m) (hm' : '\n' ∉ m') (h : FramedLines t t') :
    FramedLines (q :: (m ++ q :: t)) (q :: (m' ++ q :: t')) := by
  unfold FramedLines at *
  obtain ⟨l, ls, ht, happend⟩ := t.exists_lines
  obtain ⟨l', ls', ht', happend'⟩ := t'.exists_lines
  have hspan {n : Text} (hn : '\n' ∉ n) : '\n' ∉ q :: (n ++ [q]) := by
    simpa [hn] using Ne.symm hq.ne_newline
  have hcut := happend _ (hspan hm)
  have hcut' := happend' _ (hspan hm')
  simp only [List.cons_append, List.append_assoc, List.nil_append] at hcut hcut'
  rw [ht, ht', List.forall₂_cons] at h
  rw [hcut, hcut']
  exact .cons (.span hq h.1) h.2

end FramedLines

/-! ### Passes over any text -/

namespace Shape

variable {s : Shape} {f : Text → Text} {t : Text}

/-- A pass copies the text character by character, but for the statements that it finds. -/
theorem mapModules_induction {P : Text → Text → Prop} (nil : P [] [])
    (copied : ∀ c t, s.find? (c :: t) = none → P t (s.mapModules f t) → P (c :: t) (c :: s.mapModules f t))
    (found : ∀ t g, s.find? t = some g → P g.rest (s.mapModules f g.rest) →
      P t (g.lead ++ f g.module ++ g.quote :: s.mapModules f g.rest)) (t : Text) :
    P t (s.mapModules f t) := by
  induction hn : t.length using Nat.strong_induction_on generalizing t with
  | _ n ih =>
    subst hn
    rcases hfind : s.find? t with _ | g
    · cases t with
      | nil =>
        rw [mapModules_nil]
        exact nil
      | cons c t =>
        rw [mapModules_cons hfind]
        exact copied c t hfind (ih _ (Nat.lt_succ_self _) t rfl)
    · rw [mapModules_of_find? hfind]
      have hlt := g.length_rest_lt
      rw [← Faithful.find s hfind] at hlt
      exact found t g hfind (ih _ hlt g.rest rfl)

/-- Modules on one line are replaced by modules on one line, and so every line stays framed. -/
theorem framedLines_mapModules (hf : ∀ m, '\n' ∉ m → '\n' ∉ f m) (t : Text) :
    FramedLines t (s.mapModules f t) := by
  induction t using mapModules_induction (s := s) (f := f) with
  | nil => exact .refl []
  | copied c t _ ih => exact ih.cons c
  | found t g hfind ih =>
    obtain ⟨⟨hq, -, hm⟩, o, -, -, hlead⟩ := opening_of_find? hfind
    rw [Faithful.find s hfind, Found.source, hlead]
    simpa using (FramedLines.span hq hm (hf _ hm) ih).append o.text

theorem rest_suffix_of_find? {g : Found} (h : s.find? t = some g) : g.rest <:+ t :=
  ⟨g.lead ++ g.module ++ [g.quote], by simp [Faithful.find s h, Found.source]⟩

/-- A pass that would replace each module by itself leaves the text. -/
theorem mapModules_eq_self (h : ∀ v g, v <:+ t → s.find? v = some g → f g.module = g.module) :
    s.mapModules f t = t := by
  induction t using mapModules_induction (s := s) (f := f) with
  | nil => rfl
  | copied c t _ ih => rw [ih fun v g hv => h v g (hv.trans (List.suffix_cons c t))]
  | found t g hfind ih =>
    rw [h t g (List.suffix_refl t) hfind, ih fun v g hv => h v g (hv.trans (rest_suffix_of_find? hfind)),
      Faithful.find s hfind, Found.source]

end Shape

theorem resolve_eq_self {current m : Text} (h : Reference.isRelative m = false) :
    Reference.resolve current m = m := by
  rw [Reference.resolve, if_neg (by simp [h])]

theorem newline_not_mem_resolve {current m : Text} (hc : '\n' ∉ current) (hm : '\n' ∉ m) :
    '\n' ∉ Reference.resolve current m := by
  intro h
  rcases mem_resolve h with h | h | h | h
  · cases h
  · cases h
  · exact hc h
  · exact hm h

theorem framedLines_resolveAll {current : Text} (hc : '\n' ∉ current) (t : Text) :
    FramedLines t (resolveAll current t) := by
  have hpass (s : Shape) (t : Text) := s.framedLines_mapModules (fun _ => newline_not_mem_resolve hc) t
  exact ((hpass _ t).trans (hpass _ _)).trans (hpass _ _)

/-- A text in which no statement names a relative module stays. -/
theorem resolveAll_eq_self {t : Text} (current : Text) (h : ∀ (s : Shape) v g, v <:+ t →
    s.find? v = some g → Reference.isRelative g.module = false) : resolveAll current t = t := by
  have hpass (s : Shape) : s.mapModules (Reference.resolve current) t = t :=
    Shape.mapModules_eq_self fun v g hv hfind => resolve_eq_self (h s v g hv hfind)
  rw [resolveAll, List.foldl_cons, List.foldl_cons, List.foldl_cons, List.foldl_nil, hpass, hpass, hpass]

/-- Of any text the passes leave the number of its lines, and each line up to its first quote and from its
last quote on. A line with fewer quotes than two stays, and so does a text without a dot behind a quote. -/
theorem resolveAll_frame {current : Text} (hc : '\n' ∉ current) (t : Text) :
    (resolveAll current t).lines.length = t.lines.length ∧
      (∀ (i : Nat) (l l' : Text), t.lines[i]? = some l → (resolveAll current t).lines[i]? = some l' → Framed l l') ∧
      ((∀ q, IsQuote q → ¬ [q, '.'] <:+: t) → resolveAll current t = t) := by
  have hlines : List.Forall₂ Framed t.lines (resolveAll current t).lines := framedLines_resolveAll hc t
  refine ⟨hlines.length_eq.symm, fun i l l' hl hl' => ?_, fun hdot => ?_⟩
  · obtain ⟨hi, rfl⟩ := List.getElem?_eq_some_iff.1 hl
    obtain ⟨hi', rfl⟩ := List.getElem?_eq_some_iff.1 hl'
    exact hlines.get hi hi'
  · refine resolveAll_eq_self current fun s v g hv hfind => ?_
    obtain ⟨⟨hq, -, -⟩, o, -, -, hlead⟩ := Shape.opening_of_find? hfind
    by_contra hrel
    obtain ⟨m, hm⟩ : ∃ m, g.module = '.' :: m := by
      rw [Bool.not_eq_false, Reference.isRelative, decide_eq_true_eq] at hrel
      exact List.head?_eq_some_iff.1 hrel
    have hdotted : [g.quote, '.'] <:+: v :=
      ⟨o.text, m ++ g.quote :: g.rest, by
        rw [Faithful.find s hfind, Found.source, hlead, hm]
        simp⟩
    exact hdot g.quote hq (hdotted.trans hv.isInfix)

/-- Quotes may be unbalanced, a statement may start in the line before, and what is replaced may hold
quotes. -/
theorem resolveAll_frame_ragged :
    let t : Text := "import './b' + 'c\nexport *\tfrom\n\"../d'\"; './".toList
    let t' : Text := "import 'ns/it's/b' + 'c\nexport *\tfrom\n\"ns/d'\"; './".toList
    resolveAll "ns/it's/x".toList t = t' ∧ t'.lines.length = t.lines.length ∧
      ∀ (i : Nat) (l l' : Text), t.lines[i]? = some l → t'.lines[i]? = some l' → Framed l l' := by
  intro t t'
  have hresult : resolveAll "ns/it's/x".toList t = t' := by decide +kernel
  have hcurrent : '\n' ∉ "ns/it's/x".toList := by decide
  obtain ⟨hlength, hframed, -⟩ := resolveAll_frame hcurrent t
  rw [hresult] at hlength hframed
  exact ⟨hresult, hlength, hframed⟩

end Statement

end Rehome
