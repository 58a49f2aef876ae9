import Rehome.Proofs.Path.Segments
import Rehome.Proofs.Statement.Opening

/-! Texts of lines that hold a statement or no quote at all. On such a text the three passes replace
the module of every statement and nothing else: no pattern matches across a line end, and no line is
matched twice. -/

namespace Rehome.Statement

/-! ### One pass -/

namespace Shape

variable {s : Shape} {f : Text → Text}

theorem mapModules_of_find? {t : Text} {g : Found} (h : s.find? t = some g) :
    s.mapModules f t = g.lead ++ f g.module ++ g.quote :: s.mapModules f g.rest := by
  rw [mapModules.eq_def]
  split
  · next g' hg =>
    rw [h] at hg
    cases hg
    rfl
  · next hg => rw [h] at hg; cases hg

theorem mapModules_nil : s.mapModules f [] = [] := by
  rw [mapModules.eq_def]
  cases s <;> rfl

theorem mapModules_cons {c : Char} {t : Text} (h : s.find? (c :: t) = none) :
    s.mapModules f (c :: t) = c :: s.mapModules f t := by
  rw [mapModules.eq_def]
  split
  · next g hg => rw [h] at hg; cases hg
  · rfl

theorem mapModules_append {w t : Text}
    (h : ∀ u v, w = u ++ v → v ≠ [] → s.find? (v ++ t) = none) :
    s.mapModules f (w ++ t) = w ++ s.mapModules f t := by
  induction w with
  | nil => rfl
  | cons c w ih =>
    have ht := ih fun u v hw hv => h (c :: u) v (by rw [hw, List.cons_append]) hv
    rw [List.cons_append, mapModules_cons (t := w ++ t) (h [] (c :: w) rfl (by simp)), ht,
      List.cons_append]

end Shape

/-! ### Lines -/

/-- Neither a line feed nor a quote occurs. -/
def Unquoted (t : Text) : Prop := ∀ c ∈ t, c ≠ '\n' ∧ ¬ IsQuote c

instance (t : Text) : Decidable (Unquoted t) := List.decidableBAll (fun c => c ≠ '\n' ∧ ¬ IsQuote c) t

theorem unquoted_append {t u : Text} : Unquoted (t ++ u) ↔ Unquoted t ∧ Unquoted u :=
  List.forall_mem_append

/-- A blank that does not end a line. -/
def IsGap (c : Char) : Prop := Text.isBlank c ∧ c ≠ '\n'

instance (c : Char) : Decidable (IsGap c) := inferInstanceAs (Decidable (_ ∧ _))

theorem IsGap.not_isQuote {c : Char} (h : IsGap c) : ¬ IsQuote c := by
  rintro (rfl | rfl) <;> exact absurd h.1 (by decide)

/-- An opening on one line, in whose bindings no keyword is followed by a blank. -/
def Opening.Proper : Opening → Prop
  | bare gap => IsGap gap
  | binding _ gap bindings before after =>
    IsGap gap ∧ IsGap before ∧ IsGap after ∧ bindings ≠ [] ∧ Unquoted bindings ∧
      ∀ (s : Shape) (b : Char), Text.isBlank b → ¬ s.keyword ++ [b] <:+: bindings

inductive Line where
  | plain (t : Text)
  | statement (indent : Text) (opening : Opening) (quote : Char) (module tail : Text)

namespace Line

def text : Line → Text
  | plain t => t
  | statement indent o q m tail => indent ++ o.text ++ q :: (m ++ q :: tail)

/-- The line with its module, if it names one, replaced. -/
def mapModule (f : Text → Text) : Line → Line
  | plain t => plain t
  | statement indent o q m tail => statement indent o q (f m) tail

def PartsProper : Line → Prop
  | plain t => Unquoted t
  | statement indent o q m tail =>
    (∀ c ∈ indent, IsGap c) ∧ o.Proper ∧ IsQuote q ∧ m ≠ [] ∧ Unquoted m ∧ Unquoted tail

/-- A line without quotes or with a single statement. It must not end in a keyword, which the next
line would complete. -/
structure Proper (l : Line) : Prop where
  parts : l.PartsProper
  ending : ∀ s : Shape, ¬ s.keyword <:+ l.text

def joined (ls : List Line) : Text := ['\n'].intercalate (ls.map text)

/-- What stands between a line and the end of the text, if these lines follow. -/
def after : List Line → Text
  | [] => []
  | l :: ls => '\n' :: joined (l :: ls)

theorem joined_cons (l : Line) (ls : List Line) : joined (l :: ls) = l.text ++ after ls := by
  cases ls with
  | nil => simp [joined, after]
  | cons l' ls => simp [joined, after, List.intercalate_cons_cons]

end Line

/-! ### Where the parts of a statement can lie -/

/-- The first of two equal texts that are cut at a character ends before or at the cut of the other,
as long as the character does not occur in it. -/
theorem cut_cases {u r v x : Text} {c d : Char} (h : u ++ c :: r = v ++ d :: x) (hd : d ∉ u) :
    (v = u ∧ d = c ∧ x = r) ∨ ∃ z, v = u ++ c :: z ∧ r = z ++ d :: x := by
  induction u generalizing v with
  | nil =>
    cases v with
    | nil => simp_all
    | cons e v => exact .inr ⟨v, by simp_all⟩
  | cons e u ih =>
    rw [List.mem_cons, not_or] at hd
    cases v with
    | nil => exact absurd (List.cons.inj h).1.symm hd.1
    | cons e' v =>
      obtain ⟨rfl, h'⟩ := List.cons.inj h
      rcases ih h' hd.2 with ⟨rfl, rfl, rfl⟩ | ⟨z, rfl, hz⟩
      · exact .inl ⟨rfl, rfl, rfl⟩
      · exact .inr ⟨z, rfl, hz⟩

/-- Of two equal texts that are cut at one character, the one with the last cut has no shorter beginning. -/
theorem cut_last {u r v x : Text} {c : Char} (h : u ++ c :: r = v ++ c :: x) (hc : c ∉ r) :
    (v = u ∧ x = r) ∨ ∃ z, u = v ++ c :: z ∧ x = z ++ c :: r := by
  rcases List.append_eq_append_iff.1 h with ⟨a, rfl, ha⟩ | ⟨a, rfl, ha⟩
  · cases a with
    | nil => simp_all
    | cons d a => exact absurd (by rw [(List.cons.inj ha).2]; simp) hc
  · cases a with
    | nil => simp_all
    | cons d a =>
      obtain ⟨rfl, rfl⟩ := List.cons.inj ha
      exact .inr ⟨a, rfl, rfl⟩

theorem Shape.newline_not_mem_keyword (s : Shape) : '\n' ∉ s.keyword := by cases s <;> decide

theorem Shape.unquoted_keyword (s : Shape) : Unquoted s.keyword := by
  cases s <;> decide

/-- The first letter of a keyword is in no keyword again. -/
theorem Shape.keyword_eq_cons (s : Shape) :
    ∃ c r, s.keyword = c :: r ∧ (c = 'i' ∨ c = 'e') ∧ ∀ s' : Shape, c ∉ s'.keyword.tail := by
  cases s
  · exact ⟨'i', "mport".toList, rfl, .inl rfl, by rintro (_ | _ | _) <;> decide⟩
  · exact ⟨'i', "mport".toList, rfl, .inl rfl, by rintro (_ | _ | _) <;> decide⟩
  · exact ⟨'e', "xport".toList, rfl, .inr rfl, by rintro (_ | _ | _) <;> decide⟩

theorem Shape.keyword_importBare : importBare.keyword = ['i', 'm', 'p', 'o', 'r', 't'] := rfl

theorem Shape.length_keyword (s : Shape) : s.keyword.length = 6 := by cases s <;> rfl

theorem Shape.binding_injective {e e' : Bool} (h : (binding e).keyword = (binding e').keyword) :
    e = e' := by
  revert h
  cases e <;> cases e' <;> decide

namespace Opening

theorem text_eq_cons (o : Opening) : ∃ c r, o.text = c :: r ∧ (c = 'i' ∨ c = 'e') := by
  obtain ⟨c, r, hk, hc, -⟩ := o.shape.keyword_eq_cons
  cases o with
  | bare gap => exact ⟨c, _, by rw [text, hk, List.cons_append], hc⟩
  | binding e gap u b d => exact ⟨c, _, by rw [text, hk]; rfl, hc⟩

namespace Proper

variable {o : Opening}

theorem wellFormed (h : o.Proper) : o.WellFormed := by
  cases o with
  | bare gap => exact h.1
  | binding e gap u b c =>
    obtain ⟨hgap, hb, hc, hu, hq, -⟩ := h
    exact ⟨hgap.1, hu, fun hn => (hq _ hn).1 rfl, hb.1, hc.1⟩

theorem unquoted (h : o.Proper) : Unquoted o.text := by
  have gap {c : Char} (hc : IsGap c) : c ≠ '\n' ∧ ¬ IsQuote c := ⟨hc.2, hc.not_isQuote⟩
  have hk := o.shape.unquoted_keyword
  cases o with
  | bare c => exact unquoted_append.2 ⟨hk, by simpa [Unquoted] using gap h⟩
  | binding e c u b d =>
    obtain ⟨hc, hb, hd, -, hu, -⟩ := h
    have hfrom : Unquoted "from".toList := by decide
    intro x hx
    simp only [text, List.append_assoc, List.cons_append, List.mem_append, List.mem_cons,
      List.not_mem_nil, or_false] at hx
    rcases hx with hx | rfl | hx | rfl | hx | rfl
    · exact hk x hx
    · exact gap hc
    · exact hu x hx
    · exact gap hb
    · exact hfrom x hx
    · exact gap hd

end Proper

/-- A keyword with a blank after it that starts among blanks in front of another, or inside that one,
is that one, unless it stands in what follows. -/
theorem eq_of_append_keyword {e e' : Bool} {gap gap' : Char} {i w u u' : Text}
    (hi : ∀ c ∈ i, IsGap c) (hgap : IsGap gap) (hgap' : Text.isBlank gap')
    (hu : ∀ (s : Shape) (b : Char), Text.isBlank b → ¬ s.keyword ++ [b] <:+: u)
    (h : w ++ ((Shape.binding e').keyword ++ gap' :: u') =
      i ++ ((Shape.binding e).keyword ++ gap :: u)) : w = i ∧ e' = e ∧ gap' = gap ∧ u' = u := by
  obtain ⟨k', ks', hk', hki', hks'⟩ := (Shape.binding e').keyword_eq_cons
  obtain ⟨k, ks, hk, -, -⟩ := (Shape.binding e).keyword_eq_cons
  have hblank : Text.isBlank k' = false := by rcases hki' with rfl | rfl <;> decide
  have hsame {v v' : Text} (hv : (Shape.binding e').keyword ++ v' = (Shape.binding e).keyword ++ v) :
      e' = e ∧ v' = v := by
    obtain ⟨hke, hv⟩ := List.append_inj hv (by rw [Shape.length_keyword, Shape.length_keyword])
    exact ⟨Shape.binding_injective hke, hv⟩
  -- the keyword stands at the end of the blanks, among them, or after the first letter there
  rcases List.append_eq_append_iff.1 h with ⟨a, rfl, ha⟩ | ⟨a, rfl, ha⟩
  · cases a with
    | nil =>
      obtain ⟨he, hv⟩ := hsame ha
      exact ⟨(List.append_nil w).symm, he, List.cons.inj hv⟩
    | cons d a =>
      rw [hk', List.cons_append] at ha
      have := (hi d (by simp)).1
      rw [← (List.cons.inj ha).1, hblank] at this
      cases this
  · cases a with
    | nil =>
      obtain ⟨he, hv⟩ := hsame ha.symm
      exact ⟨List.append_nil i, he, List.cons.inj hv⟩
    | cons d a =>
      rw [hk, hk', List.cons_append, List.cons_append, List.cons_append] at ha
      have hni : k' ∉ ks := by simpa [hk] using hks' (Shape.binding e)
      rcases cut_cases (List.cons.inj ha).2 hni with ⟨-, rfl, -⟩ | ⟨z, -, rfl⟩
      · rw [hgap.1] at hblank
        cases hblank
      · exact (hu (.binding e') gap' hgap' ⟨z, u', by simp [hk']⟩).elim

/-- A well-formed opening that ends where a proper one does starts where that one does: before it
stand blanks only, and no keyword with a blank after it stands inside it. -/
theorem eq_of_append_text {o o' : Opening} {i w : Text} (ho : o.Proper) (ho' : o'.WellFormed)
    (hi : ∀ c ∈ i, IsGap c) (h : w ++ o'.text = i ++ o.text) : w = i ∧ o' = o := by
  cases o' with
  | bare gap' =>
    cases o with
    | bare gap =>
      obtain ⟨rfl, ht⟩ := List.append_inj' h (by simp [text, shape])
      have hgap : [gap'] = [gap] := List.append_cancel_left ht
      exact ⟨rfl, by rw [(List.cons.inj hgap).1]⟩
    | binding e gap u b c =>
      have h : (w ++ ['i', 'm', 'p']) ++ ['o', 'r', 't', gap'] =
          (i ++ ((Shape.binding e).keyword ++ gap :: u ++ [b, 'f'])) ++ ['r', 'o', 'm', c] := by
        simpa [text, shape, Shape.keyword_importBare] using h
      simpa using (List.append_inj' h rfl).2
  | binding e' gap' u' b' c' =>
    cases o with
    | bare gap =>
      have h : (w ++ ((Shape.binding e').keyword ++ gap' :: u' ++ [b', 'f'])) ++
          ['r', 'o', 'm', c'] = (i ++ ['i', 'm', 'p']) ++ ['o', 'r', 't', gap] := by
        simpa [text, shape, Shape.keyword_importBare] using h
      simpa using (List.append_inj' h rfl).2
    | binding e gap u b c =>
      obtain ⟨hgap, -, -, -, -, hu⟩ := ho
      have h : (w ++ ((Shape.binding e').keyword ++ gap' :: u')) ++ (b' :: ("from".toList ++ [c']))
          = (i ++ ((Shape.binding e).keyword ++ gap :: u)) ++ (b :: ("from".toList ++ [c])) := by
        simp only [text, shape, List.append_assoc, List.cons_append] at h ⊢
        exact h
      obtain ⟨hstart, hb⟩ := List.append_inj' h rfl
      obtain ⟨rfl, rfl⟩ : b' = b ∧ c' = c := by simpa using hb
      obtain ⟨rfl, rfl, rfl, rfl⟩ := eq_of_append_keyword hi hgap ho'.1 hu hstart
      exact ⟨rfl, rfl⟩

end Opening

namespace Line

theorem Proper.head_not_isQuote {l : Line} (hl : l.Proper) {c : Char} {r : Text}
    (h : l.text = c :: r) : ¬ IsQuote c := by
  cases l with
  | plain t => exact (hl.parts c (by rw [text] at h; simp [h])).2
  | statement i o q m tail =>
    obtain ⟨hi, ho, -⟩ := hl.parts
    obtain ⟨k, ks, hk, -⟩ := o.text_eq_cons
    cases i with
    | nil =>
      have : c = k := by simpa [text, hk, eq_comm] using (congrArg List.head? h)
      exact this ▸ (ho.unquoted k (by simp [hk])).2
    | cons d i =>
      have : c = d := by simpa [text, eq_comm] using (congrArg List.head? h)
      exact this ▸ (hi d List.mem_cons_self).not_isQuote

/-- A line that starts with `from` holds no quote. -/
theorem Proper.unquoted_of_from {l : Line} (hl : l.Proper) {r : Text}
    (h : l.text = "from".toList ++ r) : Unquoted l.text := by
  cases l with
  | plain t => exact hl.parts
  | statement i o q m tail =>
    obtain ⟨hi, -⟩ := hl.parts
    obtain ⟨k, ks, hk, hki⟩ := o.text_eq_cons
    cases i with
    | nil =>
      have : k = 'f' := by simpa [text, hk] using (congrArg List.head? h)
      subst this
      exact absurd hki (by decide)
    | cons d i =>
      have : d = 'f' := by simpa [text] using (congrArg List.head? h)
      exact absurd (hi d List.mem_cons_self).1 (this ▸ by decide)

variable {ls : List Line} {q : Char} {x y t : Text}

/-- What follows a line starts a new one, so no quote is reached on the way there. -/
theorem after_eq_append (h : after ls = x ++ q :: y) (hq : IsQuote q) :
    ∃ x', x = '\n' :: x' ∧ joined ls = x' ++ q :: y := by
  cases ls with
  | nil => simp [after] at h
  | cons l ls =>
    cases x with
    | nil => exact absurd (List.cons.inj h).1.symm hq.ne_newline
    | cons c x =>
      obtain ⟨rfl, h'⟩ := List.cons.inj h
      exact ⟨x, rfl, h'⟩

/-- No module that is opened before an unquoted end of a line is closed behind it. -/
theorem not_closed_after {m : Text} (ht : Unquoted t) (hq : IsQuote q) (hm : '\n' ∉ m) :
    t ++ after ls ≠ m ++ q :: y := by
  intro h
  rcases List.append_eq_append_iff.1 h with ⟨a, rfl, ha⟩ | ⟨a, rfl, ha⟩
  · obtain ⟨x, rfl, -⟩ := after_eq_append ha hq
    simp at hm
  · cases a with
    | nil =>
      obtain ⟨x, hx, -⟩ := after_eq_append (x := []) (by simpa using ha.symm) hq
      cases hx
    | cons c a =>
      obtain ⟨rfl, -⟩ := List.cons.inj ha
      exact (ht q (by simp)).2 hq

theorem joined_ne_quote (hls : ∀ l ∈ ls, l.Proper) (hq : IsQuote q) : joined ls ≠ q :: y := by
  intro h
  cases ls with
  | nil => simp [joined] at h
  | cons l ls =>
    rw [joined_cons] at h
    cases hl : l.text with
    | nil =>
      obtain ⟨x, hx, -⟩ := after_eq_append (x := []) (by simpa [hl] using h) hq
      cases hx
    | cons c r =>
      rw [hl, List.cons_append] at h
      exact (hls l List.mem_cons_self).head_not_isQuote hl ((List.cons.inj h).1 ▸ hq)

theorem joined_ne_from (hls : ∀ l ∈ ls, l.Proper) (hq : IsQuote q) {b : Char} :
    joined ls ≠ "from".toList ++ b :: q :: y := by
  intro h
  cases ls with
  | nil => simp [joined] at h
  | cons l ls =>
    have hl := hls l List.mem_cons_self
    rw [joined_cons, List.append_cons] at h
    rcases List.append_eq_append_iff.1 h with ⟨a, ha, hr⟩ | ⟨a, ha, hr⟩
    · -- the line ends before the quote, with the blank or before it
      obtain ⟨x, rfl, hx⟩ := after_eq_append hr hq
      rcases cut_cases ha (by decide) with ⟨-, -, rfl⟩ | ⟨z, -, hz⟩
      · exact joined_ne_quote (fun l hl => hls l (List.mem_cons_of_mem _ hl)) hq hx
      · simp at hz
    · have hu := hl.unquoted_of_from (r := [b] ++ a) (by rw [ha, List.append_assoc])
      cases a with
      | nil =>
        obtain ⟨x, hx, -⟩ := after_eq_append (x := []) (by simpa using hr.symm) hq
        cases hx
      | cons c a =>
        obtain ⟨rfl, -⟩ := List.cons.inj hr
        exact (hu q (by rw [ha]; simp)).2 hq

/-- No opening starts on a line and ends on a later one. -/
theorem opening_not_across {l : Line} (hl : l.Proper) (hls : ∀ l ∈ ls, l.Proper) {o : Opening}
    (ho : o.WellFormed) (hq : IsQuote q) {w v : Text} (hw : l.text = w ++ v)
    (ht : o.text = v ++ x) : after ls ≠ x ++ q :: y := by
  intro h
  obtain ⟨x, rfl, hx⟩ := after_eq_append h hq
  have hk := o.shape.newline_not_mem_keyword
  have hend : v ≠ o.shape.keyword := fun hv => hl.ending o.shape ⟨w, by rw [hw, hv]⟩
  cases o with
  | bare gap =>
    rcases cut_cases ht hk with ⟨hv, -⟩ | ⟨z, -, hz⟩
    · exact hend hv
    · simp at hz
  | binding e gap u b c =>
    obtain ⟨-, -, hu, -⟩ := ho
    rw [Opening.text, List.append_assoc, List.append_assoc] at ht
    rcases cut_cases ht hk with ⟨hv, -⟩ | ⟨z, -, hz⟩
    · exact hend hv
    rcases cut_cases hz hu with ⟨-, -, rfl⟩ | ⟨z', -, hz'⟩
    · exact joined_ne_from hls hq (hx.trans (List.append_assoc _ [c] _))
    rcases cut_cases hz' (by decide) with ⟨-, -, rfl⟩ | ⟨z'', -, hz''⟩
    · exact joined_ne_quote hls hq hx
    · simp at hz''

/-- What a pattern finds from some place of a line on is the statement of that line. -/
theorem eq_statement_of_find? {s : Shape} {l : Line} (hl : l.Proper) (hls : ∀ l ∈ ls, l.Proper)
    {w v : Text} {g : Found} (hw : l.text = w ++ v) (h : s.find? (v ++ after ls) = some g) :
    ∃ o q m tail, l = statement w o q m tail ∧ o.shape = s ∧
      g = ⟨o.text ++ [q], m, q, tail ++ after ls⟩ := by
  obtain ⟨⟨hq, -, hm⟩, o', ho', rfl, hlead⟩ := Shape.opening_of_find? h
  obtain ⟨lead, m', q, r⟩ := g
  obtain rfl : lead = o'.text ++ [q] := hlead
  have hsrc : v ++ after ls = o'.text ++ q :: (m' ++ q :: r) := by
    simpa [Found.source] using Faithful.find _ h
  rcases List.append_eq_append_iff.1 hsrc with ⟨x, hx, hr⟩ | ⟨x, rfl, hr⟩
  · exact (opening_not_across hl hls ho' hq hw hx hr).elim
  cases x with
  | nil =>
    obtain ⟨x, hx, -⟩ := after_eq_append (x := []) (by simpa using hr.symm) hq
    cases hx
  | cons c x =>
  obtain ⟨rfl, hclose⟩ := List.cons.inj hr
  change m' ++ q :: r = x ++ after ls at hclose
  cases l with
  | plain t => exact ((hl.parts q (by rw [text] at hw; simp [hw])).2 hq).elim
  | statement i o q' m tail =>
    obtain ⟨hi, ho, hq', -, hmu, htu⟩ := hl.parts
    have hiu : q ∉ i ++ o.text := by
      rw [List.mem_append]
      rintro (hc | hc)
      · exact (hi q hc).not_isQuote hq
      · exact (ho.unquoted q hc).2 hq
    rw [text, ← List.append_assoc w] at hw
    rcases cut_cases hw hiu with ⟨hwi, rfl, rfl⟩ | ⟨z, -, hz⟩
    · -- the opening quotes agree, so the closing ones do
      obtain ⟨rfl, rfl⟩ := Opening.eq_of_append_text ho ho' hi hwi
      rw [List.append_assoc, List.cons_append] at hclose
      rcases cut_cases hclose.symm (fun hc => (hmu q hc).2 hq) with ⟨rfl, -, rfl⟩ | ⟨z, rfl, hz⟩
      · exact ⟨o', q, m', tail, rfl, rfl, rfl⟩
      · exact (not_closed_after htu hq (by simp_all) hz).elim
    · -- the closing quote of the line cannot open anything
      rcases cut_cases hz (fun hc => (hmu q hc).2 hq) with ⟨-, -, rfl⟩ | ⟨z', -, rfl⟩
      · exact (not_closed_after htu hq hm hclose.symm).elim
      · exact ((htu q (by simp)).2 hq).elim

/-! ### Passes over lines -/

variable {s : Shape} {f : Text → Text}

/-- The line with its module replaced if its statement is of the given shape. -/
def mapShape (s : Shape) (f : Text → Text) : Line → Line
  | plain t => plain t
  | statement i o q m tail => statement i o q (if o.shape = s then f m else m) tail

/-- From a place where no statement of the shape starts, nothing is found. -/
theorem find?_eq_none {l : Line} (hl : l.Proper) (hls : ∀ l ∈ ls, l.Proper) {w v : Text}
    (hw : l.text = w ++ v) (h : ∀ o q m tail, l = statement w o q m tail → o.shape ≠ s) :
    s.find? (v ++ after ls) = none := by
  refine Option.eq_none_iff_forall_ne_some.2 fun g hg => ?_
  obtain ⟨o, q, m, tail, hstatement, hs, -⟩ := eq_statement_of_find? hl hls hw hg
  exact h o q m tail hstatement hs

/-- Every statement starts with the first letter of a keyword. -/
theorem find?_of_head {c : Char} (hi : c ≠ 'i') (he : c ≠ 'e') (t : Text) : s.find? (c :: t) = none := by
  refine Option.eq_none_iff_forall_ne_some.2 fun g hg => ?_
  obtain ⟨-, o, -, -, hlead⟩ := Shape.opening_of_find? hg
  obtain ⟨d, r, ho, hd⟩ := o.text_eq_cons
  have hsrc := congrArg List.head? (Faithful.find s hg)
  rw [Found.source, hlead, ho] at hsrc
  obtain rfl : c = d := by simpa using hsrc
  exact hd.elim hi he

theorem find?_blank {c : Char} (hc : Text.isBlank c) (t : Text) : s.find? (c :: t) = none := by
  refine find?_of_head ?_ ?_ t <;> rintro rfl <;> exact absurd hc (by decide)

/-- With nothing found in what follows a statement, a pass replaces its module and goes on behind it. -/
theorem mapModules_alone {i m tail : Text} {o : Opening} (hi : ∀ c ∈ i, IsGap c)
    (hfound : s.find? (o.text ++ q :: (m ++ q :: (tail ++ t))) = some ⟨o.text ++ [q], m, q, tail ++ t⟩)
    (htail : ∀ u v, tail = u ++ v → v ≠ [] → s.find? (v ++ t) = none) :
    s.mapModules f ((statement i o q m tail).text ++ t) =
      (statement i o q (f m) tail).text ++ s.mapModules f t := by
  have hindent : ∀ u v, i = u ++ v → v ≠ [] →
      s.find? (v ++ (o.text ++ q :: (m ++ q :: (tail ++ t)))) = none := by
    rintro u v rfl hv
    obtain ⟨c, v, rfl⟩ := List.exists_cons_of_ne_nil hv
    exact find?_blank (hi c (by simp)).1 _
  calc s.mapModules f ((statement i o q m tail).text ++ t)
    _ = s.mapModules f (i ++ (o.text ++ q :: (m ++ q :: (tail ++ t)))) := by
      simp [text]
    _ = i ++ (o.text ++ [q] ++ f m ++ q :: s.mapModules f (tail ++ t)) := by
      rw [Shape.mapModules_append hindent, Shape.mapModules_of_find? hfound]
    _ = (statement i o q (f m) tail).text ++ s.mapModules f t := by
      rw [Shape.mapModules_append htail]
      simp [text]

theorem mapModules_statement {i m tail : Text} {o : Opening}
    (hl : (statement i o q m tail).Proper) (hls : ∀ l ∈ ls, l.Proper) :
    o.shape.mapModules f ((statement i o q m tail).text ++ after ls) =
      (statement i o q (f m) tail).text ++ o.shape.mapModules f (after ls) := by
  obtain ⟨hi, ho, hq, hm, hmu, -⟩ := hl.parts
  have htail : ∀ u v, tail = u ++ v → v ≠ [] → o.shape.find? (v ++ after ls) = none := by
    intro u v huv _
    refine find?_eq_none (w := i ++ o.text ++ q :: (m ++ q :: u)) hl hls (by simp [text, huv]) ?_
    intro o' q' m' tail' h
    have := congrArg List.length (statement.inj h).1
    simp at this
  obtain ⟨g, hg⟩ := Opening.exists_find? (r := tail ++ after ls) ho.wellFormed hq hm
    fun hn => (hmu _ hn).1 rfl
  obtain ⟨o', q', m', tail', h, -, rfl⟩ := eq_statement_of_find? (w := i)
    (v := o.text ++ q :: (m ++ q :: tail)) hl hls (by simp [text]) (by simpa using hg)
  cases h
  exact mapModules_alone hi hg htail

theorem mapModules_line {l : Line} (hl : l.Proper) (hls : ∀ l ∈ ls, l.Proper) :
    s.mapModules f (l.text ++ after ls) =
      (l.mapShape s f).text ++ s.mapModules f (after ls) := by
  cases l with
  | plain t =>
    refine Shape.mapModules_append fun u v huv _ => find?_eq_none hl hls huv ?_
    intro o q m tail h
    cases h
  | statement i o q m tail =>
    rw [mapShape]
    split
    · next hs =>
      subst hs
      exact mapModules_statement hl hls
    · next hs =>
      refine Shape.mapModules_append fun u v huv _ => find?_eq_none hl hls huv ?_
      intro o' q' m' tail' h
      cases h
      exact hs

theorem mapModules_newline (t : Text) : s.mapModules f ('\n' :: t) = '\n' :: s.mapModules f t :=
  Shape.mapModules_cons (find?_blank (by decide) t)

theorem mapModules_joined (hls : ∀ l ∈ ls, l.Proper) :
    s.mapModules f (joined ls) = joined (ls.map (mapShape s f)) := by
  induction ls with
  | nil => exact Shape.mapModules_nil
  | cons l ls ih =>
    have ih := ih fun l hl => hls l (List.mem_cons_of_mem _ hl)
    rw [List.map_cons, joined_cons, joined_cons, mapModules_line (hls l List.mem_cons_self)
      fun l hl => hls l (List.mem_cons_of_mem _ hl)]
    cases ls with
    | nil => rw [after, Shape.mapModules_nil]; rfl
    | cons l' ls => rw [after, mapModules_newline, ih]; rfl

/-- An end without quotes lies behind the closing quote, where nothing is replaced. -/
theorem suffix_of_suffix_mapShape {k : Text} (hk : Unquoted k) {l : Line} (hl : l.Proper)
    (h : k <:+ (l.mapShape s f).text) : k <:+ l.text := by
  cases l with
  | plain t => exact h
  | statement i o q m tail =>
    obtain ⟨-, -, hq, -⟩ := hl.parts
    have hqk : q ∉ k := fun hc => (hk q hc).2 hq
    have hend (x n : Text) : q :: tail <:+ x ++ q :: (n ++ q :: tail) :=
      ⟨x ++ q :: n, by simp⟩
    have htail : k <:+ tail := by
      rcases List.suffix_or_suffix_of_suffix h (hend _ _) with h | h
      · rcases List.suffix_cons_iff.1 h with rfl | h
        · exact absurd List.mem_cons_self hqk
        · exact h
      · exact absurd (h.subset List.mem_cons_self) hqk
    exact htail.trans ((List.suffix_cons q tail).trans (hend _ _))

theorem Proper.mapShape {l : Line} (hl : l.Proper)
    (hf : ∀ m, m ≠ [] → Unquoted m → f m ≠ [] ∧ Unquoted (f m)) : (l.mapShape s f).Proper where
  parts := by
    cases l with
    | plain t => exact hl.parts
    | statement i o q m tail =>
      obtain ⟨hi, ho, hq, hm, hmu, htu⟩ := hl.parts
      rw [Line.mapShape]
      split
      · exact ⟨hi, ho, hq, (hf m hm hmu).1, (hf m hm hmu).2, htu⟩
      · exact ⟨hi, ho, hq, hm, hmu, htu⟩
  ending k h := hl.ending k (suffix_of_suffix_mapShape k.unquoted_keyword hl h)

/-- The passes treat each statement once, the one of its shape. -/
theorem mapShape_passes (l : Line) :
    ((l.mapShape .importFrom f).mapShape .importBare f).mapShape .exportFrom f = l.mapModule f := by
  cases l with
  | plain t => rfl
  | statement i o q m tail => cases h : o.shape <;> simp [mapShape, mapModule, h]

end Line

theorem resolve_ne_nil (current : Text) {m : Text} (hm : m ≠ []) : Reference.resolve current m ≠ [] := by
  unfold Reference.resolve
  split
  · dsimp only
    split
    · simp
    · exact Path.normalize_ne_nil _
  · exact hm

/-- Resolving brings in no characters but slashes, dots and those of the current path. -/
theorem mem_resolve {c : Char} {current m : Text} (h : c ∈ Reference.resolve current m) :
    c = '/' ∨ c = '.' ∨ c ∈ current ∨ c ∈ m := by
  have hslashed (h : c ∈ m.slashed) : c = '/' ∨ c = '.' ∨ c ∈ current ∨ c ∈ m := by
    obtain ⟨d, hd, rfl⟩ := List.mem_map.1 h
    split
    · exact .inl rfl
    · exact .inr (.inr (.inr hd))
  have htarget (h : c ∈ Path.normalize (Path.join (Path.join current Path.up) m.slashed)) :
      c = '/' ∨ c = '.' ∨ c ∈ current ∨ c ∈ m := by
    rcases Path.mem_normalize h with h | h | h
    · exact .inl h
    · exact .inr (.inl h)
    rcases Path.mem_join h with h | h | h
    · exact .inl h
    · rcases Path.mem_join h with h | h | h
      · exact .inl h
      · exact .inr (.inr (.inl h))
      · exact .inr (.inl (by simpa [Path.up] using h))
    · exact hslashed h
  unfold Reference.resolve at h
  split at h
  · dsimp only at h
    split at h
    · rcases List.mem_append.1 h with h | h
      · exact htarget h
      · exact .inl (List.mem_singleton.1 h)
    · exact htarget h
  · exact .inr (.inr (.inr h))

theorem unquoted_resolve {current m : Text} (hc : Unquoted current) (hm : Unquoted m) :
    Unquoted (Reference.resolve current m) := by
  intro c h
  rcases mem_resolve h with rfl | rfl | h | h
  · decide
  · decide
  · exact hc c h
  · exact hm c h

/-- On lines without quotes or with one statement each, exactly the modules are resolved, each of
them once. -/
theorem resolveAll_joined {current : Text} (hc : Unquoted current) {ls : List Line}
    (hls : ∀ l ∈ ls, l.Proper) :
    resolveAll current (Line.joined ls) =
      Line.joined (ls.map (Line.mapModule (Reference.resolve current))) := by
  have hf (m : Text) (hm : m ≠ []) (hu : Unquoted m) :=
    And.intro (resolve_ne_nil current hm) (unquoted_resolve hc hu)
  have hmap {s : Shape} {ls : List Line} (hls : ∀ l ∈ ls, l.Proper) :
      ∀ l ∈ ls.map (Line.mapShape s (Reference.resolve current)), l.Proper := by
    intro l hl
    obtain ⟨l₀, hl₀, rfl⟩ := List.mem_map.1 hl
    exact (hls l₀ hl₀).mapShape hf
  have h₁ := hmap (s := .importFrom) hls
  have h₂ := hmap (s := .importBare) h₁
  rw [resolveAll, List.foldl_cons, List.foldl_cons, List.foldl_cons, List.foldl_nil,
    Line.mapModules_joined hls, Line.mapModules_joined h₁, Line.mapModules_joined h₂,
    List.map_map, List.map_map]
  exact congrArg Line.joined (List.map_congr_left fun l _ => Line.mapShape_passes l)

/-- The bindings may be the word `from`, and what follows a module may look like a keyword. -/
theorem resolveAll_import_and_export :
    resolveAll "ns/a/x".toList
        "import from from './b' // import \n\texport * from \"../c//\";".toList =
      "import from from 'ns/a/b' // import \n\texport * from \"ns/c/\";".toList := by
  have short (u : Text) (hu : u.length ≤ 6) (s : Shape) (b : Char) :
      Text.isBlank b → ¬ s.keyword ++ [b] <:+: u := by
    intro _ h
    have := h.length_le
    rw [List.length_append, s.length_keyword, List.length_singleton] at this
    omega
  have himport : (Line.statement [] (.binding false ' ' "from".toList ' ' ' ') '\''
      "./b".toList " // import ".toList).Proper :=
    ⟨⟨by simp, ⟨by decide, by decide, by decide, by decide, by decide, short _ (by decide)⟩,
      .inl rfl, by decide, by decide, by decide⟩, by rintro (_ | _ | _) <;> decide⟩
  have hexport : (Line.statement ['\t'] (.binding true ' ' ['*'] ' ' ' ') '"'
      "../c//".toList [';']).Proper :=
    ⟨⟨List.forall_mem_singleton.2 (by decide),
      ⟨by decide, by decide, by decide, by decide, by decide, short _ (by decide)⟩,
      .inr rfl, by decide, by decide, by decide⟩, by rintro (_ | _ | _) <;> decide⟩
  have h := resolveAll_joined (show Unquoted "ns/a/x".toList by decide)
    (List.forall_mem_cons.2 ⟨himport, List.forall_mem_singleton.2 hexport⟩)
  exact h.trans (by decide)

end Rehome.Statement
