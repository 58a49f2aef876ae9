import Rehome.Proofs.Statement.Comment
import Rehome.Proofs.Statement.Reading

/-! Lines with a single quoted span. Each pass replaces the span if the words of a statement of its shape
stand in front of it, so the span is resolved as often as there are shapes that fit, which may be twice. -/

namespace Rehome.Statement

/-- The words of a statement of this shape end the text. -/
def Shape.Opens (s : Shape) (t : Text) : Prop := ∃ o : Opening, o.WellFormed ∧ o.shape = s ∧ o.text <:+ t

theorem Opening.text_ne_nil (o : Opening) : o.text ≠ [] := by
  obtain ⟨c, r, h, -⟩ := o.text_eq_cons
  simp [h]

/-- A bare import is opened by no other words. -/
theorem Shape.not_opens_binding {t : Text} (h : importBare.Opens t) (e : Bool) : ¬ (binding e).Opens t := by
  rintro ⟨o', -, hs', hsuffix'⟩
  obtain ⟨o, -, hs, hsuffix⟩ := h
  cases o with
  | binding e' gap u b c => cases e' <;> cases hs
  | bare gap =>
    cases o' with
    | bare gap' => cases e <;> cases hs'
    | binding e' gap' u b c =>
      have hword : ['r', 't', gap] <:+ t :=
        List.IsSuffix.trans ⟨['i', 'm', 'p', 'o'], by simp [Opening.text, Opening.shape, keyword_importBare]⟩ hsuffix
      have hword' : ['o', 'm', c] <:+ t :=
        List.IsSuffix.trans ⟨(binding e').keyword ++ gap' :: u ++ [b, 'f', 'r'], by
          simp [Opening.text, Opening.shape]⟩ hsuffix'
      have hsame := (List.suffix_of_suffix_length_le hword hword' (Nat.le_refl 3)).eq_of_length rfl
      simp at hsame

/-- The parts of a line with one quoted span. -/
structure OneSpan (a : Text) (q : Char) (m b : Text) : Prop where
  before : Unquoted a
  quote : IsQuote q
  ne_nil : m ≠ []
  inside : Unquoted m
  behind : Unquoted b

namespace OneSpan

variable {a b m w v m' r : Text} {q q' : Char} {o : Opening} {s : Shape} {f : Text → Text}

/-- A module that can be read on the line is the span. -/
theorem of_reads (h : OneSpan a q m b) (hv : a ++ q :: (m ++ q :: b) = w ++ v) (hr : Reads v o q' m' r) :
    w ++ o.text = a ∧ q' = q ∧ m' = m ∧ r = b := by
  have out {t : Text} (ht : Unquoted t) : q' ∉ t := fun hc => (ht q' hc).2 hr.quote
  rw [hr.source, ← List.append_assoc] at hv
  rcases cut_cases hv (out h.before) with ⟨hopening, rfl, hmodule⟩ | ⟨z, -, hmodule⟩
  · rcases cut_cases hmodule.symm (out h.inside) with ⟨rfl, -, rfl⟩ | ⟨z, -, rfl⟩
    · exact ⟨hopening, rfl, rfl, rfl⟩
    · exact absurd (by simp) (out h.behind)
  -- from the closing quote on there is no other
  · rcases cut_cases hmodule (out h.inside) with ⟨-, -, hrest⟩ | ⟨z', -, rfl⟩
    · exact absurd (by simp [← hrest]) (out h.behind)
    · exact absurd (by simp) (out h.behind)

/-- Behind the span nothing is found. -/
theorem mapModules_behind (h : OneSpan a q m b) (s : Shape) (f : Text → Text) : s.mapModules f b = b := by
  refine Shape.mapModules_eq_self fun v g hv hg => ?_
  obtain ⟨o, q', m', r, hr, -, -⟩ := greatest_of_find? hg
  exact absurd hr.quote (h.behind q' (hv.subset (by rw [hr.source]; simp))).2

theorem mapModules_of_not_opens (h : OneSpan a q m b) (hs : ¬ s.Opens a) (f : Text → Text) :
    s.mapModules f (a ++ q :: (m ++ q :: b)) = a ++ q :: (m ++ q :: b) := by
  refine Shape.mapModules_eq_self fun v g ⟨w, hw⟩ hg => ?_
  obtain ⟨o, q', m', r, hr, rfl, -⟩ := greatest_of_find? hg
  obtain ⟨ha, -⟩ := h.of_reads hw.symm hr.toReads
  exact absurd ⟨o, hr.opening, rfl, w, ha⟩ hs

theorem mapModules_of_opens (h : OneSpan a q m b) (hs : s.Opens a) (f : Text → Text) :
    s.mapModules f (a ++ q :: (m ++ q :: b)) = a ++ q :: (f m ++ q :: b) := by
  induction a with
  | nil =>
    obtain ⟨o, -, -, ho⟩ := hs
    exact absurd (List.suffix_nil.1 ho) o.text_ne_nil
  | cons c a ih =>
    rcases hfind : s.find? (c :: a ++ q :: (m ++ q :: b)) with _ | g
    · have hbefore : Unquoted a := fun d hd => h.before d (List.mem_cons_of_mem c hd)
      -- nothing is found at the head, so the words start behind it
      have hopens : s.Opens a := by
        obtain ⟨o, ho, rfl, hsuffix⟩ := hs
        rcases List.suffix_cons_iff.1 hsuffix with heq | hsuffix
        · obtain ⟨g, hg⟩ := Opening.exists_find? (r := b) ho h.quote h.ne_nil fun hn => (h.inside _ hn).1 rfl
          rw [heq, hfind] at hg
          cases hg
        · exact ⟨o, ho, rfl, hsuffix⟩
      rw [List.cons_append, Shape.mapModules_cons (t := a ++ q :: (m ++ q :: b)) hfind,
        ih { h with before := hbefore } hopens, List.cons_append]
    · obtain ⟨o, q', m', r, hr, -, rfl⟩ := greatest_of_find? hfind
      obtain ⟨ha, rfl, rfl, rfl⟩ := h.of_reads (w := []) rfl hr.toReads
      rw [List.nil_append] at ha
      rw [Shape.mapModules_of_find? hfind, h.mapModules_behind, ha]
      simp

end OneSpan

/-- Whatever stands on a line around its only quoted span, the line is left or has the span resolved once, unless
the words of an import and of an export both fit, and then only if resolving again makes no difference. -/
theorem resolveAll_span_iff {current a m b : Text} {q : Char} (hc : Unquoted current) (h : OneSpan a q m b) :
    (resolveAll current (a ++ q :: (m ++ q :: b)) = a ++ q :: (m ++ q :: b) ∨
      resolveAll current (a ++ q :: (m ++ q :: b)) = a ++ q :: (Reference.resolve current m ++ q :: b)) ↔
    (Shape.importFrom.Opens a → Shape.exportFrom.Opens a →
      Reference.resolve current (Reference.resolve current m) = m ∨
        Reference.resolve current (Reference.resolve current m) = Reference.resolve current m) := by
  have hresolved : OneSpan a q (Reference.resolve current m) b :=
    { h with ne_nil := resolve_ne_nil current h.ne_nil, inside := unquoted_resolve hc h.inside }
  rw [resolveAll, List.foldl_cons, List.foldl_cons, List.foldl_cons, List.foldl_nil]
  by_cases hbare : Shape.importBare.Opens a
  · have himport : ¬ Shape.importFrom.Opens a := Shape.not_opens_binding hbare false
    have hexport : ¬ Shape.exportFrom.Opens a := Shape.not_opens_binding hbare true
    rw [h.mapModules_of_not_opens himport, h.mapModules_of_opens hbare, hresolved.mapModules_of_not_opens hexport]
    simp [himport]
  by_cases himport : Shape.importFrom.Opens a
  · rw [h.mapModules_of_opens himport, hresolved.mapModules_of_not_opens hbare]
    by_cases hexport : Shape.exportFrom.Opens a
    · rw [hresolved.mapModules_of_opens hexport]
      simp [himport, hexport]
    · rw [hresolved.mapModules_of_not_opens hexport]
      simp [hexport]
  · rw [h.mapModules_of_not_opens himport, h.mapModules_of_not_opens hbare]
    by_cases hexport : Shape.exportFrom.Opens a
    · rw [h.mapModules_of_opens hexport]
      simp [himport]
    · rw [h.mapModules_of_not_opens hexport]
      simp [himport]

/-- The bindings may open an export, as a module that is no longer relative is not resolved again. -/
theorem resolveAll_span_export_binding :
    let a : Text := "import \x7b export as y \x7d from ".toList
    OneSpan a '\'' "./b".toList ";".toList ∧
      (resolveAll "ns/a/x".toList (a ++ "'./b';".toList) = a ++ "'./b';".toList ∨
        resolveAll "ns/a/x".toList (a ++ "'./b';".toList) = a ++ "'ns/a/b';".toList) := by
  intro a
  have hspan : OneSpan a '\'' "./b".toList ";".toList :=
    ⟨by decide, .inl rfl, by decide, by decide, by decide⟩
  have hcurrent : Unquoted "ns/a/x".toList := by decide
  exact ⟨hspan, (resolveAll_span_iff hcurrent hspan).2 fun _ _ => .inr (by decide)⟩

/-- A reference that climbs above the namespace stays relative and climbs further when an export takes its turn. -/
theorem resolveAll_resolves_twice :
    let line : Text := "import \x7b export as x \x7d from '../../y'".toList
    resolveAll "ns/a".toList line ≠ line ∧
      resolveAll "ns/a".toList line ≠ "import \x7b export as x \x7d from '../y'".toList := by
  decide +kernel

end Rehome.Statement
