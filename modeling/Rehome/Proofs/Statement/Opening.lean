import Mathlib.Data.List.Basic
import Rehome.Statement.Replace

/-! What a pattern finds at the head of a text: an opening, the words of a statement up to its
opening quote, and a module between two equal quotes on one line. -/

namespace Rehome.Statement

def IsQuote (q : Char) : Prop := q = '\'' ∨ q = '"'

instance (q : Char) : Decidable (IsQuote q) := inferInstanceAs (Decidable (_ ∨ _))

theorem IsQuote.ne_newline {q : Char} (h : IsQuote q) : q ≠ '\n' := by
  rcases h with rfl | rfl <;> decide

theorem IsQuote.not_isBlank {q : Char} (h : IsQuote q) : ¬ Text.isBlank q := by
  rcases h with rfl | rfl <;> decide

namespace Shape

def keyword : Shape → Text
  | importFrom | importBare => "import".toList
  | exportFrom => "export".toList

/-- The shape with bindings, of an export or an import. -/
def binding (exported : Bool) : Shape := if exported then exportFrom else importFrom

theorem eq_importBare_or_binding (s : Shape) : s = importBare ∨ ∃ e, s = binding e := by
  cases s with
  | importBare => exact .inl rfl
  | importFrom => exact .inr ⟨false, rfl⟩
  | exportFrom => exact .inr ⟨true, rfl⟩

theorem find?_importBare :
    importBare.find? = wordThen? importBare.keyword (blankThen? quotedModule?) := rfl

theorem find?_binding (e : Bool) :
    (binding e).find? = wordThen? (binding e).keyword (blankThen? (bindingsThen? fromClause?)) := by
  cases e <;> rfl

end Shape

/-- The words of a statement before its opening quote. -/
inductive Opening where
  /-- The keyword and one blank. -/
  | bare (gap : Char)
  /-- The keyword, bindings and `from`, with one blank between any two of them and one at the end. -/
  | binding (exported : Bool) (gap : Char) (bindings : Text) (before after : Char)
  deriving DecidableEq

namespace Opening

def shape : Opening → Shape
  | bare _ => .importBare
  | binding e .. => .binding e

def text (o : Opening) : Text :=
  match o with
  | bare gap => o.shape.keyword ++ [gap]
  | binding _ gap bindings before after =>
    o.shape.keyword ++ gap :: bindings ++ before :: "from".toList ++ [after]

theorem text_binding (e : Bool) (gap : Char) (u : Text) (before after : Char) :
    (binding e gap u before after).text =
      ((Shape.binding e).keyword ++ gap :: u) ++ before :: ("from".toList ++ [after]) := by
  simp [text, shape]

/-- Blanks may be of any kind here, line feeds among them; bindings stay on one line. -/
def WellFormed : Opening → Prop
  | bare gap => Text.isBlank gap
  | binding _ gap bindings before after =>
    Text.isBlank gap ∧ bindings ≠ [] ∧ '\n' ∉ bindings ∧ Text.isBlank before ∧ Text.isBlank after

end Opening

section Longest

variable {α : Type} {next : Text → Option α} {t u r : Text} {a : α}

theorem longest?_inline (h : longest? next t = some (u, a)) : u ≠ [] ∧ '\n' ∉ u := by
  induction t generalizing u with
  | nil => simp [longest?] at h
  | cons c t ih =>
    rw [longest?] at h
    split at h
    · cases h
    · next hc =>
      split at h
      · next u' a' h' =>
        obtain ⟨rfl, rfl⟩ := by simpa using h
        simpa [Ne.symm hc] using (ih h').2
      · obtain ⟨a', -, h⟩ := Option.map_eq_some_iff.1 h
        obtain ⟨rfl, rfl⟩ := by simpa using h
        simpa using Ne.symm hc

/-- Wherever `next` accepts after a beginning on one line, a longest such beginning is found. -/
theorem exists_longest? (hu : u ≠ []) (hn : '\n' ∉ u) (hr : next r = some a) :
    ∃ v b, longest? next (u ++ r) = some (v, b) := by
  induction u with
  | nil => exact absurd rfl hu
  | cons c u ih =>
    simp only [List.mem_cons, not_or] at hn
    rw [List.cons_append, longest?, if_neg (Ne.symm hn.1)]
    split
    · exact ⟨_, _, rfl⟩
    · next hnone =>
      cases u with
      | nil => exact ⟨_, _, by rw [List.nil_append, hr]; rfl⟩
      | cons d u =>
        obtain ⟨v, b, hv⟩ := ih (by simp) hn.2
        rw [List.cons_append] at hv
        rw [List.cons_append, hv] at hnone
        cases hnone

/-- Behind the longest module on a line, its quote does not stand again. -/
theorem newline_mem_of_longest? {q : Char} {x y : Text} (hq : q ≠ '\n')
    (h : longest? (closing? q) t = some (u, x ++ q :: y)) : '\n' ∈ x := by
  induction t generalizing u with
  | nil => simp [longest?] at h
  | cons c t ih =>
    rw [longest?] at h
    split at h
    · cases h
    split at h
    · next u' a' h' =>
      obtain ⟨-, rfl⟩ := by simpa using h
      exact ih h'
    · next hnone =>
      obtain ⟨a', ha, h⟩ := Option.map_eq_some_iff.1 h
      obtain ⟨-, rfl⟩ := by simpa using h
      -- with the closing quote in it, a longer module would have been found
      by_contra hx
      have hline : '\n' ∉ q :: x := by simpa [hx] using Ne.symm hq
      have hclose : closing? q (q :: y) = some y := if_pos rfl
      obtain ⟨v, b, hv⟩ := exists_longest? (List.cons_ne_nil q x) hline hclose
      rw [eq_cons_of_closing? ha, ← List.cons_append, hv] at hnone
      cases hnone

end Longest

/-- A module between quotes, as `quotedModule?` finds it. -/
structure Found.Quoted (f : Found) : Prop where
  quote : IsQuote f.quote
  module_ne_nil : f.module ≠ []
  inline : '\n' ∉ f.module
  /-- No quote of its kind follows on the line. -/
  last : ∀ x y, f.rest = x ++ f.quote :: y → '\n' ∈ x

theorem quoted_of_quotedModule? {t : Text} {f : Found} (h : quotedModule? t = some f) :
    f.Quoted ∧ f.lead = [f.quote] := by
  cases t with
  | nil => simp [quotedModule?] at h
  | cons q t =>
    rw [quotedModule?] at h
    split at h
    · next hq =>
      obtain ⟨⟨m, r⟩, hm, rfl⟩ := Option.map_eq_some_iff.1 h
      refine ⟨⟨hq, (longest?_inline hm).1, (longest?_inline hm).2, fun x y hr => ?_⟩, rfl⟩
      obtain rfl : r = x ++ q :: y := hr
      exact newline_mem_of_longest? (IsQuote.ne_newline hq) hm
    · cases h

theorem exists_quotedModule? {q : Char} {m r : Text} (hq : IsQuote q) (hm : m ≠ [])
    (hn : '\n' ∉ m) : ∃ f, quotedModule? (q :: (m ++ q :: r)) = some f := by
  have hclose : closing? q (q :: r) = some r := if_pos rfl
  obtain ⟨v, b, hv⟩ := exists_longest? hm hn hclose
  refine ⟨⟨[q], v, q, b⟩, ?_⟩
  rw [quotedModule?, if_pos (show q = _ ∨ q = _ from hq), hv]
  rfl

section Combinators

variable {next : Text → Option Found} {t : Text} {f : Found}

theorem blank_of_blankThen? (h : blankThen? next t = some f) :
    ∃ c r g, t = c :: r ∧ Text.isBlank c ∧ next r = some g ∧ f = g.addLead [c] := by
  cases t with
  | nil => simp [blankThen?] at h
  | cons c t =>
    rw [blankThen?] at h
    split at h
    · next hc =>
      obtain ⟨g, hg, rfl⟩ := Option.map_eq_some_iff.1 h
      exact ⟨c, t, g, rfl, hc, hg, rfl⟩
    · cases h

theorem blankThen?_cons {c : Char} (hc : Text.isBlank c) (h : next t = some f) :
    blankThen? next (c :: t) = some (f.addLead [c]) := by
  rw [blankThen?, if_pos hc, h, Option.map_some]

theorem word_of_wordThen? {w : Text} (h : wordThen? w next t = some f) :
    ∃ r g, t = w ++ r ∧ next r = some g ∧ f = g.addLead w := by
  obtain ⟨r, hr, h⟩ := Option.bind_eq_some_iff.1 h
  obtain ⟨g, hg, rfl⟩ := Option.map_eq_some_iff.1 h
  exact ⟨r, g, Text.eq_append_of_afterPrefix? hr, hg, rfl⟩

theorem wordThen?_append (w : Text) (h : next t = some f) :
    wordThen? w next (w ++ t) = some (f.addLead w) := by
  rw [wordThen?, Text.afterPrefix?_append, Option.bind_some, h, Option.map_some]

theorem bindings_of_bindingsThen? (h : bindingsThen? next t = some f) :
    ∃ u r g, t = u ++ r ∧ u ≠ [] ∧ '\n' ∉ u ∧ next r = some g ∧ f = g.addLead u := by
  obtain ⟨⟨u, g⟩, hu, rfl⟩ := Option.map_eq_some_iff.1 h
  obtain ⟨r, rfl, hr⟩ := eq_append_of_longest? hu
  exact ⟨u, r, g, rfl, (longest?_inline hu).1, (longest?_inline hu).2, hr, rfl⟩

theorem exists_bindingsThen? {u r : Text} {g : Found} (hu : u ≠ []) (hn : '\n' ∉ u)
    (hr : next r = some g) : ∃ f, bindingsThen? next (u ++ r) = some f := by
  obtain ⟨v, b, hv⟩ := exists_longest? hu hn hr
  exact ⟨_, by rw [bindingsThen?, hv]; rfl⟩

end Combinators

@[simp] theorem Found.lead_addLead (u : Text) (f : Found) : (f.addLead u).lead = u ++ f.lead := rfl
@[simp] theorem Found.quote_addLead (u : Text) (f : Found) : (f.addLead u).quote = f.quote := rfl

theorem Found.Quoted.addLead {f : Found} (h : f.Quoted) (u : Text) : (f.addLead u).Quoted :=
  ⟨h.quote, h.module_ne_nil, h.inline, h.last⟩

theorem lead_of_fromClause? {t : Text} {f : Found} (h : fromClause? t = some f) :
    f.Quoted ∧ ∃ b c, Text.isBlank b ∧ Text.isBlank c ∧
      f.lead = b :: "from".toList ++ [c] ++ [f.quote] := by
  obtain ⟨b, r, f₁, rfl, hb, h₁, rfl⟩ := blank_of_blankThen? h
  obtain ⟨r, f₂, rfl, h₂, rfl⟩ := word_of_wordThen? h₁
  obtain ⟨c, r, f₃, rfl, hc, h₃, rfl⟩ := blank_of_blankThen? h₂
  obtain ⟨hq, hl⟩ := quoted_of_quotedModule? h₃
  exact ⟨((hq.addLead _).addLead _).addLead _, b, c, hb, hc, by simp [hl]⟩

theorem exists_fromClause? {b c q : Char} {m r : Text} (hb : Text.isBlank b)
    (hc : Text.isBlank c) (hq : IsQuote q) (hm : m ≠ []) (hn : '\n' ∉ m) :
    ∃ f, fromClause? (b :: ("from".toList ++ c :: q :: (m ++ q :: r))) = some f := by
  obtain ⟨f, hf⟩ := exists_quotedModule? (r := r) hq hm hn
  exact ⟨_, blankThen?_cons hb (wordThen?_append _ (blankThen?_cons hc hf))⟩

/-- What a pattern finds starts with an opening of its shape. -/
theorem Shape.opening_of_find? {s : Shape} {t : Text} {f : Found} (h : s.find? t = some f) :
    f.Quoted ∧ ∃ o : Opening, o.WellFormed ∧ o.shape = s ∧ f.lead = o.text ++ [f.quote] := by
  obtain rfl | ⟨e, rfl⟩ := s.eq_importBare_or_binding
  · rw [find?_importBare] at h
    obtain ⟨r, f₁, rfl, h₁, rfl⟩ := word_of_wordThen? h
    obtain ⟨gap, r, f₂, rfl, hgap, h₂, rfl⟩ := blank_of_blankThen? h₁
    obtain ⟨hq, hl⟩ := quoted_of_quotedModule? h₂
    refine ⟨(hq.addLead _).addLead _, .bare gap, hgap, rfl, ?_⟩
    simp [hl, Opening.text, Opening.shape]
  · rw [find?_binding] at h
    obtain ⟨r, f₁, rfl, h₁, rfl⟩ := word_of_wordThen? h
    obtain ⟨gap, r, f₂, rfl, hgap, h₂, rfl⟩ := blank_of_blankThen? h₁
    obtain ⟨u, r, f₃, rfl, hu, hn, h₃, rfl⟩ := bindings_of_bindingsThen? h₂
    obtain ⟨hq, b, c, hb, hc, hl⟩ := lead_of_fromClause? h₃
    refine ⟨((hq.addLead _).addLead _).addLead _, .binding e gap u b c, ⟨hgap, hu, hn, hb, hc⟩,
      rfl, ?_⟩
    simp [hl, Opening.text, Opening.shape]

/-- Wherever an opening and a quoted module stand, the pattern of that shape finds something. -/
theorem Opening.exists_find? {o : Opening} {q : Char} {m r : Text} (ho : o.WellFormed)
    (hq : IsQuote q) (hm : m ≠ []) (hn : '\n' ∉ m) :
    ∃ f, o.shape.find? (o.text ++ q :: (m ++ q :: r)) = some f := by
  cases o with
  | bare gap =>
    obtain ⟨f, hf⟩ := exists_quotedModule? (r := r) hq hm hn
    have h := wordThen?_append Shape.importBare.keyword (blankThen?_cons ho hf)
    rw [text, List.append_assoc, shape, Shape.find?_importBare]
    exact ⟨_, h⟩
  | binding e gap u b c =>
    obtain ⟨hgap, hu, hnu, hb, hc⟩ := ho
    obtain ⟨f, hf⟩ := exists_fromClause? (r := r) hb hc hq hm hn
    obtain ⟨f, hf⟩ := exists_bindingsThen? hu hnu hf
    have h := wordThen?_append (Shape.binding e).keyword (blankThen?_cons hgap hf)
    rw [text, shape, Shape.find?_binding]
    exact ⟨_, by simpa using h⟩

end Rehome.Statement
