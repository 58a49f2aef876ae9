import Rehome.Proofs.Statement.Opening

/-! The ways to read a statement at the head of a text, and the one that a pattern finds: the opening is the
longest that leaves a module behind it, and the module is the longest behind that opening. -/

namespace Rehome.Statement

/-- The text starts with an opening and a quoted module, whether or not a pattern would choose them. -/
structure Reads (t : Text) (o : Opening) (q : Char) (m r : Text) : Prop where
  source : t = o.text ++ q :: (m ++ q :: r)
  opening : o.WellFormed
  quote : IsQuote q
  module_ne_nil : m ≠ []
  inline : '\n' ∉ m

/-- The reading that the pattern of its shape finds. -/
structure Greatest (t : Text) (o : Opening) (q : Char) (m r : Text) : Prop extends Reads t o q m r where
  /-- No opening of the shape goes further. -/
  furthest : ∀ o' q' m' r', o'.shape = o.shape → Reads t o' q' m' r' → o'.text.length ≤ o.text.length
  /-- The quote does not stand again on the line. -/
  last : ∀ x y, r = x ++ q :: y → '\n' ∈ x

variable {s : Shape} {t m r : Text} {o : Opening} {q : Char} {g : Found}

theorem Reads.exists_find? (h : Reads t o q m r) : ∃ g, o.shape.find? t = some g :=
  h.source ▸ Opening.exists_find? h.opening h.quote h.module_ne_nil h.inline

theorem length_le_of_longest? {α : Type} {next : Text → Option α} {u v r : Text} {a b : α}
    (h : longest? next (v ++ r) = some (u, a)) (hn : '\n' ∉ v) (hr : next r = some b) : v.length ≤ u.length := by
  induction v generalizing u a with
  | nil => exact Nat.zero_le _
  | cons c v ih =>
    rw [List.mem_cons, not_or] at hn
    rw [List.cons_append, longest?, if_neg (Ne.symm hn.1)] at h
    split at h
    · next u' a' h' =>
      obtain ⟨rfl, -⟩ := by simpa using h
      simpa using ih h' hn.2
    · next hnone =>
      obtain ⟨a', -, ha⟩ := Option.map_eq_some_iff.1 h
      obtain ⟨rfl, -⟩ := Prod.mk.inj ha
      by_cases hv : v = []
      · simp [hv]
      · obtain ⟨u', a', hu⟩ := exists_longest? hv hn.2 hr
        rw [hu] at hnone
        cases hnone

/-- No opening in front of a module goes further than the one that is found. -/
theorem Reads.length_le (h : Reads t o q m r) (hg : o.shape.find? t = some g) :
    (o.text ++ [q]).length ≤ g.lead.length := by
  cases o with
  | bare gap =>
    obtain ⟨-, o', -, hs, hlead⟩ := Shape.opening_of_find? hg
    cases o' with
    | bare gap' => simp [hlead, Opening.text, Opening.shape]
    | binding e u b c d => cases e <;> cases hs
  | binding e gap u b c =>
    obtain ⟨-, -, hn, hb, hc⟩ := h.opening
    obtain ⟨f, hf⟩ := exists_fromClause? (r := r) hb hc h.quote h.module_ne_nil h.inline
    have hsource : t = (Shape.binding e).keyword ++ gap :: (u ++ b :: ("from".toList ++ c :: q :: (m ++ q :: r))) := by
      simpa [Opening.text, Opening.shape] using h.source
    rw [Opening.shape, Shape.find?_binding] at hg
    obtain ⟨t₁, g₁, ht₁, h₁, rfl⟩ := word_of_wordThen? hg
    obtain ⟨gap', t₂, g₂, rfl, -, h₂, rfl⟩ := blank_of_blankThen? h₁
    obtain ⟨⟨v, g₃⟩, hv, rfl⟩ := Option.map_eq_some_iff.1 h₂
    obtain ⟨r', -, hr'⟩ := eq_append_of_longest? hv
    obtain ⟨-, b', c', -, -, hlead⟩ := lead_of_fromClause? hr'
    obtain ⟨-, rfl⟩ := List.cons.inj (List.append_cancel_left (hsource.symm.trans ht₁))
    have hle := length_le_of_longest? hv hn hf
    simp [Opening.text, Opening.shape, hlead]
    omega

theorem greatest_of_find? (h : s.find? t = some g) :
    ∃ o q m r, Greatest t o q m r ∧ o.shape = s ∧ g = ⟨o.text ++ [q], m, q, r⟩ := by
  obtain ⟨⟨hq, hm, hn, hlast⟩, o, ho, rfl, hlead⟩ := Shape.opening_of_find? h
  obtain ⟨lead, m, q, r⟩ := g
  obtain rfl : lead = o.text ++ [q] := hlead
  have hsource : t = o.text ++ q :: (m ++ q :: r) := by
    simpa [Found.source] using Faithful.find _ h
  refine ⟨o, q, m, r, ⟨⟨hsource, ho, hq, hm, hn⟩, fun o' q' m' r' hs hr => ?_, hlast⟩, rfl, rfl⟩
  rw [← hs] at h
  simpa using hr.length_le h

/-- Behind the same opening no module is longer: it would reach over a quote that does not stand again. -/
theorem Greatest.module_prefix {o' : Opening} {q' : Char} {m' r' : Text} (h : Greatest t o q m r)
    (h' : Reads t o' q' m' r') (hlength : o'.text.length = o.text.length) :
    o'.text = o.text ∧ q' = q ∧ m' <+: m := by
  obtain ⟨htext, hrest⟩ := List.append_inj (h'.source.symm.trans h.source) hlength
  obtain ⟨rfl, hrest⟩ := List.cons.inj hrest
  refine ⟨htext, rfl, ?_⟩
  rcases List.append_eq_append_iff.1 hrest.symm with ⟨x, rfl, hx⟩ | ⟨x, rfl, -⟩
  · cases x with
    | nil => simp
    | cons c x =>
      obtain ⟨-, rfl⟩ := List.cons.inj hx
      exact absurd (h.last x r' rfl) fun hn => h'.inline (by simp [hn])
  · exact List.prefix_append _ _

theorem Greatest.find? (h : Greatest t o q m r) : o.shape.find? t = some ⟨o.text ++ [q], m, q, r⟩ := by
  obtain ⟨g, hg⟩ := h.exists_find?
  obtain ⟨o', q', m', r', h', hs, rfl⟩ := greatest_of_find? hg
  have hlength : o'.text.length = o.text.length :=
    Nat.le_antisymm (h.furthest _ _ _ _ hs h'.toReads) (h'.furthest _ _ _ _ hs.symm h.toReads)
  obtain ⟨htext, rfl, hprefix⟩ := h.module_prefix h'.toReads hlength
  obtain ⟨-, -, hprefix'⟩ := h'.module_prefix h.toReads hlength.symm
  obtain rfl : m' = m := hprefix.eq_of_length_le hprefix'.length_le
  have hsource := h'.source.symm.trans h.source
  rw [htext] at hsource
  have hrest := (List.cons.inj (List.append_cancel_left hsource)).2
  rw [hg, htext, (List.cons.inj (List.append_cancel_left hrest)).2]

theorem find?_eq_none_iff : s.find? t = none ↔ ∀ o q m r, o.shape = s → ¬ Reads t o q m r := by
  refine ⟨fun h o q m r hs hr => ?_, fun h => Option.eq_none_iff_forall_ne_some.2 fun g hg => ?_⟩
  · obtain ⟨g, hg⟩ := hr.exists_find?
    rw [hs, h] at hg
    cases hg
  · obtain ⟨o, q, m, r, hr, hs, -⟩ := greatest_of_find? hg
    exact h o q m r hs hr.toReads

end Rehome.Statement
