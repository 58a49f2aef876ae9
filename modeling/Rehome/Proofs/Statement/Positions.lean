import Mathlib.Data.Nat.Find
import Mathlib.Order.Bounds.Basic
import Rehome.Proofs.Statement.Once

/-! The places of the first statement of a shape. All ways to read one are compared: the statement that is
replaced starts at the first place where there is any, its opening goes as far from there as a module can still be
closed behind it, and its module is closed as late as it can be. On a single line it is told by the places of its
words alone where a statement can be read. -/

namespace Rehome

namespace Text

variable {t w u' v' : Text} {i : ℕ}

/-- The word stands in the text behind `i` characters. -/
def StandsAt (w t : Text) (i : ℕ) : Prop := ∃ u v, t = u ++ w ++ v ∧ u.length = i

/-- A word that ends no later than the first part of a text does lies in that part. -/
theorem StandsAt.exists_between (h : StandsAt w (u' ++ v') i) (hle : i + w.length ≤ u'.length) :
    ∃ u x, u' = u ++ w ++ x ∧ u.length = i := by
  obtain ⟨u, v, htext, hi⟩ := h
  have hprefix : u ++ w <+: u' :=
    List.prefix_of_prefix_length_le ⟨v, htext.symm⟩ (List.prefix_append u' v') (by simpa [hi] using hle)
  obtain ⟨x, rfl⟩ := hprefix
  exact ⟨u, x, rfl, hi⟩

end Text

namespace Statement

open Text (StandsAt)

variable {s : Shape} {t m r : Text} {o : Opening} {q : Char} {e : Bool} {i j k l : ℕ}

theorem Reads.exists_append (h : Reads (t.drop i) o q m r) :
    ∃ w, w.length = i ∧ t = w ++ (o.text ++ q :: (m ++ q :: r)) := by
  have hi : i ≤ t.length := by
    by_contra hlt
    have hsource := h.source
    rw [List.drop_eq_nil_of_le (by omega)] at hsource
    simp at hsource
  exact ⟨t.take i, List.length_take_of_le hi, by rw [← h.source, List.take_append_drop]⟩

namespace Shape

/-- A statement of the shape can be read at `i`, with the quotes around its module at `k` and at `l`. -/
def ReadsAt (s : Shape) (t : Text) (i k l : ℕ) : Prop :=
  ∃ o q m r, o.shape = s ∧ Reads (t.drop i) o q m r ∧ k = i + o.text.length ∧ l = k + 1 + m.length

/-- The first statement of the shape is found at `i`, with the quotes around its module at `k` and at `l`. -/
structure FirstAt (s : Shape) (t : Text) (i k l : ℕ) : Prop where
  before : ∀ i' < i, s.find? (t.drop i') = none
  found : ∃ g, s.find? (t.drop i) = some g ∧ k + 1 = i + g.lead.length ∧ l = k + 1 + g.module.length

theorem exists_find?_iff : (∃ i, (s.find? (t.drop i)).isSome) ↔ ∃ i k l, s.ReadsAt t i k l := by
  constructor
  · rintro ⟨i, hi⟩
    obtain ⟨g, hg⟩ := Option.isSome_iff_exists.1 hi
    obtain ⟨o, q, m, r, h, hs, -⟩ := greatest_of_find? hg
    exact ⟨i, _, _, o, q, m, r, hs, h.toReads, rfl, rfl⟩
  · rintro ⟨i, k, l, o, q, m, r, rfl, h, -, -⟩
    exact ⟨i, Option.isSome_iff_exists.2 h.exists_find?⟩

theorem exists_firstAt (h : ∃ i, (s.find? (t.drop i)).isSome) : ∃ i k l, s.FirstAt t i k l := by
  obtain ⟨g, hg⟩ := Option.isSome_iff_exists.1 (Nat.find_spec h)
  obtain ⟨o, q, m, r, -, -, rfl⟩ := greatest_of_find? hg
  refine ⟨Nat.find h, Nat.find h + o.text.length, _, fun i' hi' => ?_, _, hg, ?_, rfl⟩
  · simpa using Nat.find_min h hi'
  · simp [Nat.add_assoc]

theorem FirstAt.exists_greatest (h : s.FirstAt t i k l) :
    ∃ o q m r, Greatest (t.drop i) o q m r ∧ o.shape = s ∧ k = i + o.text.length ∧ l = k + 1 + m.length := by
  obtain ⟨-, g, hg, hk, hl⟩ := h
  obtain ⟨o, q, m, r, h, hs, rfl⟩ := greatest_of_find? hg
  exact ⟨o, q, m, r, h, hs, by simpa [← Nat.add_assoc] using hk, hl⟩

/-- The search from the left that takes what it can and gives back what it must comes to the least place of a
statement, the greatest end of its opening and the greatest end of its module, in this order. -/
theorem firstAt_iff : s.FirstAt t i k l ↔
    IsLeast {i | ∃ k l, s.ReadsAt t i k l} i ∧ IsGreatest {k | ∃ l, s.ReadsAt t i k l} k ∧
      IsGreatest {l | s.ReadsAt t i k l} l := by
  constructor
  · intro hfirst
    obtain ⟨o, q, m, r, h, hs, rfl, rfl⟩ := hfirst.exists_greatest
    have hhere : s.ReadsAt t i _ _ := ⟨o, q, m, r, hs, h.toReads, rfl, rfl⟩
    refine ⟨⟨⟨_, _, hhere⟩, ?_⟩, ⟨⟨_, hhere⟩, ?_⟩, hhere, ?_⟩
    · rintro i' ⟨k', l', o', q', m', r', hs', h', -, -⟩
      by_contra hlt
      exact find?_eq_none_iff.1 (hfirst.before i' (by omega)) o' q' m' r' hs' h'
    · rintro k' ⟨l', o', q', m', r', hs', h', rfl, -⟩
      have hle := h.furthest o' q' m' r' (hs'.trans hs.symm) h'
      omega
    · rintro l' ⟨o', q', m', r', -, h', hk', rfl⟩
      obtain ⟨-, -, hprefix⟩ := h.module_prefix h' (by omega)
      have hle := hprefix.length_le
      omega
  · rintro ⟨⟨-, hi⟩, ⟨-, hk⟩, ⟨o', q', m', r', rfl, h', rfl, rfl⟩, hl⟩
    -- What the search finds is extremal too, so it has the lengths of the extremal reading that is given.
    obtain ⟨g, hg⟩ := h'.exists_find?
    obtain ⟨o, q, m, r, h, hs, rfl⟩ := greatest_of_find? hg
    have hopening : o.text.length = o'.text.length := by
      have hle := h.furthest o' q' m' r' hs.symm h'
      have hge := hk ⟨_, o, q, m, r, hs, h.toReads, rfl, rfl⟩
      omega
    have hmodule : m.length = m'.length := by
      obtain ⟨-, -, hprefix⟩ := h.module_prefix h' hopening.symm
      have hle := hprefix.length_le
      have hge := hl ⟨o, q, m, r, hs, h.toReads, by rw [hopening], rfl⟩
      omega
    refine ⟨fun i' hlt => find?_eq_none_iff.2 fun o₁ q₁ m₁ r₁ hs₁ h₁ => ?_, _, hg, ?_, ?_⟩
    · have hge := hi ⟨_, _, o₁, q₁, m₁, r₁, hs₁, h₁, rfl, rfl⟩
      omega
    · simp [hopening, Nat.add_assoc]
    · simp [hmodule]

theorem mapModules_of_drop {f : Text → Text} (h : ∀ i' < i, s.find? (t.drop i') = none) (hi : i ≤ t.length) :
    s.mapModules f t = t.take i ++ s.mapModules f (t.drop i) := by
  conv_lhs => rw [← List.take_append_drop i t]
  refine mapModules_append fun u v huv hv => ?_
  have hlength : (u ++ v).length = i := by rw [← huv, List.length_take_of_le hi]
  have htext : t = u ++ (v ++ t.drop i) := by
    rw [← List.append_assoc, ← huv, List.take_append_drop]
  rw [List.length_append] at hlength
  have hnone := h u.length (by have := List.length_pos_iff.2 hv; omega)
  rw [htext, List.drop_left] at hnone
  exact hnone

theorem mapModules_of_none {f : Text → Text} (h : ∀ i, s.find? (t.drop i) = none) : s.mapModules f t = t := by
  have hdrop := mapModules_of_drop (f := f) (fun i' (_ : i' < t.length) => h i') le_rfl
  simpa [mapModules_nil] using hdrop

/-- The module of the first statement is what stands between its quotes. A pass puts another text there, and goes
on behind the closing quote. -/
theorem FirstAt.between (h : s.FirstAt t i k l) :
    ∃ q, IsQuote q ∧ t[k]? = some q ∧ t[l]? = some q ∧
      s.find? (t.drop i) = some ⟨(t.take (k + 1)).drop i, (t.take l).drop (k + 1), q, t.drop (l + 1)⟩ ∧
      ∀ f, s.mapModules f t =
        t.take (k + 1) ++ f ((t.take l).drop (k + 1)) ++ q :: s.mapModules f (t.drop (l + 1)) := by
  obtain ⟨o, q, m, r, hr, rfl, hk, hl⟩ := h.exists_greatest
  obtain ⟨w, hw, htext⟩ := hr.exists_append
  -- The text, cut before the quote, behind it, before the next quote and behind that.
  have hquote : t = (w ++ o.text) ++ q :: (m ++ q :: r) := by simp [htext]
  have hlead : t = (w ++ o.text ++ [q]) ++ (m ++ q :: r) := by simp [htext]
  have hmodule : t = (w ++ o.text ++ [q] ++ m) ++ q :: r := by simp [htext]
  have hrest : t = (w ++ o.text ++ [q] ++ m ++ [q]) ++ r := by simp [htext]
  have htake : t.take (k + 1) = w ++ o.text ++ [q] := by
    rw [hlead, List.take_left' (by simp; omega)]
  have hbetween : (t.take l).drop (k + 1) = m := by
    rw [hmodule, List.take_left' (by simp; omega), List.drop_left' (by simp; omega)]
  have hdrop : t.drop (l + 1) = r := by
    rw [hrest, List.drop_left' (by simp; omega)]
  refine ⟨q, hr.quote, ?_, ?_, ?_, fun f => ?_⟩
  · have hlength : (w ++ o.text).length = k := by simp; omega
    rw [hquote, List.getElem?_append_right hlength.le, hlength, Nat.sub_self]
    rfl
  · have hlength : (w ++ o.text ++ [q] ++ m).length = l := by simp; omega
    rw [hmodule, List.getElem?_append_right hlength.le, hlength, Nat.sub_self]
    rfl
  · rw [hr.find?, htake, hbetween, hdrop, List.append_assoc, List.drop_left' hw]
  · rw [mapModules_of_drop h.before (by simp [htext, ← hw]), mapModules_of_find? hr.find?, htake, hbetween, hdrop,
      htext, List.take_left' hw]
    simp

end Shape

/-! ### Places of words -/

/-- The keyword and a blank stand at `i`. Behind bindings of one character or more, a blank, `from`, a blank and a
quote stand at `j`, and behind a module of one character or more, the same quote stands at `l`. -/
def Binds (e : Bool) (t : Text) (i j l : ℕ) : Prop :=
  ∃ gap before after q, Text.isBlank gap ∧ Text.isBlank before ∧ Text.isBlank after ∧ IsQuote q ∧
    StandsAt ((Shape.binding e).keyword ++ [gap]) t i ∧ i + 7 < j ∧
    StandsAt (before :: "from".toList ++ [after, q]) t j ∧ j + 7 < l ∧ StandsAt [q] t l

/-- `import`, a blank and a quote stand at `i`, and behind a module of one character or more, the same quote stands
at `l`. -/
def Imports (t : Text) (i l : ℕ) : Prop :=
  ∃ gap q, Text.isBlank gap ∧ IsQuote q ∧ StandsAt (Shape.importBare.keyword ++ [gap, q]) t i ∧ i + 8 < l ∧
    StandsAt [q] t l

theorem Reads.binds {gap b c : Char} {u : Text} (h : Reads (t.drop i) (.binding e gap u b c) q m r) :
    Binds e t i (i + 7 + u.length) (i + 13 + u.length + 1 + m.length) := by
  obtain ⟨w, rfl, htext⟩ := h.exists_append
  obtain ⟨hgap, hu, -, hb, hc⟩ := h.opening
  have hkey := (Shape.binding e).length_keyword
  have hu := List.length_pos_iff.2 hu
  have hm := List.length_pos_iff.2 h.module_ne_nil
  refine ⟨gap, b, c, q, hgap, hb, hc, h.quote, ⟨w, u ++ b :: "from".toList ++ [c] ++ q :: (m ++ q :: r), ?_, rfl⟩,
    by omega, ⟨w ++ (Shape.binding e).keyword ++ gap :: u, m ++ q :: r, ?_, ?_⟩, by omega,
    ⟨w ++ (Opening.binding e gap u b c).text ++ q :: m, r, by simp [htext], ?_⟩⟩
  · simp [htext, Opening.text, Opening.shape]
  · simp [htext, Opening.text, Opening.shape]
  · simp [hkey]
    omega
  · simp [Opening.text, Opening.shape, hkey]
    omega

/-- On a line nothing stands in the way of bindings and module. -/
theorem Binds.readsAt (ht : '\n' ∉ t) (h : Binds e t i j l) : (Shape.binding e).ReadsAt t i (j + 6) l := by
  obtain ⟨gap, b, c, q, hgap, hb, hc, hq, hkeyword, hij, hfrom, hjl, u₃, r, htext, rfl⟩ := h
  have hkey := (Shape.binding e).length_keyword
  -- The words are cut off from the right, since each lies in front of the one behind it.
  rw [htext, List.append_assoc] at hfrom hkeyword
  obtain ⟨u₂, m, rfl, rfl⟩ := hfrom.exists_between (by simp; omega)
  rw [List.append_assoc, List.append_assoc] at hkeyword
  obtain ⟨u₁, u, rfl, rfl⟩ := hkeyword.exists_between (by simp [hkey]; omega)
  have hword : "from".toList.length = 4 := rfl
  simp only [List.length_append, List.length_cons, List.length_nil, hkey, hword] at hij hjl
  have hu : u ≠ [] := List.ne_nil_of_length_pos (by omega)
  have hm : m ≠ [] := List.ne_nil_of_length_pos (by omega)
  have hmn : '\n' ∉ m := fun hn => ht (by simp [htext, hn])
  have hun : '\n' ∉ u := fun hn => ht (by simp [htext, hn])
  refine ⟨.binding e gap u b c, q, m, r, rfl, ⟨?_, ⟨hgap, hu, hun, hb, hc⟩, hq, hm, hmn⟩, ?_, ?_⟩
  · have hsource : t = u₁ ++ ((Opening.binding e gap u b c).text ++ q :: (m ++ q :: r)) := by
      simp [htext, Opening.text, Opening.shape]
    rw [hsource, List.drop_left]
  · simp [Opening.text, Opening.shape]
    omega
  · simp
    omega

theorem Reads.imports {gap : Char} (h : Reads (t.drop i) (.bare gap) q m r) : Imports t i (i + 7 + 1 + m.length) := by
  obtain ⟨w, rfl, htext⟩ := h.exists_append
  have hm := List.length_pos_iff.2 h.module_ne_nil
  refine ⟨gap, q, h.opening, h.quote, ⟨w, m ++ q :: r, ?_, rfl⟩, by omega,
    ⟨w ++ (Opening.bare gap).text ++ q :: m, r, by simp [htext], ?_⟩⟩
  · simp [htext, Opening.text, Opening.shape]
  · simp [Opening.text, Opening.shape, Shape.length_keyword]
    omega

theorem Imports.readsAt (ht : '\n' ∉ t) (h : Imports t i l) : Shape.importBare.ReadsAt t i (i + 7) l := by
  obtain ⟨gap, q, hgap, hq, hkeyword, hil, u₂, r, htext, rfl⟩ := h
  have hkey := Shape.importBare.length_keyword
  rw [htext, List.append_assoc] at hkeyword
  obtain ⟨u₁, m, rfl, rfl⟩ := hkeyword.exists_between (by simp [hkey]; omega)
  simp only [List.length_append, List.length_cons, List.length_nil, hkey] at hil
  have hm : m ≠ [] := List.ne_nil_of_length_pos (by omega)
  have hmn : '\n' ∉ m := fun hn => ht (by simp [htext, hn])
  refine ⟨.bare gap, q, m, r, rfl, ⟨?_, hgap, hq, hm, hmn⟩, rfl, ?_⟩
  · have hsource : t = u₁ ++ ((Opening.bare gap).text ++ q :: (m ++ q :: r)) := by
      simp [htext, Opening.text, Opening.shape]
    rw [hsource, List.drop_left]
  · simp [hkey]
    omega

theorem Shape.readsAt_binding_iff (ht : '\n' ∉ t) :
    (Shape.binding e).ReadsAt t i k l ↔ ∃ j, k = j + 6 ∧ Binds e t i j l := by
  constructor
  · rintro ⟨o, q, m, r, hs, h, rfl, rfl⟩
    cases o with
    | bare gap => cases e <;> cases hs
    | binding e' gap u b c =>
      obtain rfl : e' = e := binding_injective (congrArg keyword hs)
      have hlength : (Opening.binding e' gap u b c).text.length = 13 + u.length := by
        simp [Opening.text, Opening.shape, length_keyword]
        omega
      exact ⟨i + 7 + u.length, by omega, by simpa [hlength, Nat.add_assoc] using h.binds⟩
  · rintro ⟨j, rfl, h⟩
    exact h.readsAt ht

theorem Shape.readsAt_importBare_iff (ht : '\n' ∉ t) :
    Shape.importBare.ReadsAt t i k l ↔ k = i + 7 ∧ Imports t i l := by
  constructor
  · rintro ⟨o, q, m, r, hs, h, rfl, rfl⟩
    cases o with
    | binding e gap u b c => cases e <;> cases hs
    | bare gap => exact ⟨rfl, h.imports⟩
  · rintro ⟨rfl, h⟩
    exact h.readsAt ht

theorem isGreatest_add_iff {S : Set ℕ} {n : ℕ} :
    IsGreatest {k | ∃ j, k = j + n ∧ j ∈ S} (j + n) ↔ IsGreatest S j := by
  constructor
  · rintro ⟨⟨j', hj', hmem⟩, hupper⟩
    obtain rfl : j = j' := by omega
    exact ⟨hmem, fun j' hj' => by simpa using hupper ⟨j', rfl, hj'⟩⟩
  · rintro ⟨hmem, hupper⟩
    refine ⟨⟨j, rfl, hmem⟩, ?_⟩
    rintro k ⟨j', rfl, hj'⟩
    simpa using hupper hj'

namespace Shape

theorem exists_readsAt_binding_iff (ht : '\n' ∉ t) :
    (∃ k l, (binding e).ReadsAt t i k l) ↔ ∃ j l, Binds e t i j l := by
  simp only [readsAt_binding_iff ht]
  constructor
  · rintro ⟨k, l, j, -, h⟩
    exact ⟨j, l, h⟩
  · rintro ⟨j, l, h⟩
    exact ⟨j + 6, l, j, rfl, h⟩

theorem firstAt_binding_iff (ht : '\n' ∉ t) : (binding e).FirstAt t i k l ↔
    ∃ j, k = j + 6 ∧ IsLeast {i | ∃ j l, Binds e t i j l} i ∧ IsGreatest {j | ∃ l, Binds e t i j l} j ∧
      IsGreatest {l | Binds e t i j l} l := by
  have hopening : {k | ∃ l, (binding e).ReadsAt t i k l} =
      {k | ∃ j, k = j + 6 ∧ j ∈ {j | ∃ l, Binds e t i j l}} := by
    ext k
    simp only [readsAt_binding_iff ht, Set.mem_ofPred_eq]
    constructor
    · rintro ⟨l, j, rfl, h⟩
      exact ⟨j, rfl, l, h⟩
    · rintro ⟨j, rfl, l, h⟩
      exact ⟨l, j, rfl, h⟩
  have hclose (j : ℕ) : {l | (binding e).ReadsAt t i (j + 6) l} = {l | Binds e t i j l} := by
    ext l
    simp [readsAt_binding_iff ht]
  simp only [firstAt_iff, exists_readsAt_binding_iff ht]
  rw [hopening]
  constructor
  · rintro ⟨hi, hk, hl⟩
    obtain ⟨j, rfl, -⟩ := hk.1
    exact ⟨j, rfl, hi, isGreatest_add_iff.1 hk, hclose j ▸ hl⟩
  · rintro ⟨j, rfl, hi, hj, hl⟩
    exact ⟨hi, isGreatest_add_iff.2 hj, hclose j ▸ hl⟩

theorem exists_readsAt_importBare_iff (ht : '\n' ∉ t) :
    (∃ k l, importBare.ReadsAt t i k l) ↔ ∃ l, Imports t i l := by
  simp only [readsAt_importBare_iff ht]
  constructor
  · rintro ⟨k, l, -, h⟩
    exact ⟨l, h⟩
  · rintro ⟨l, h⟩
    exact ⟨i + 7, l, rfl, h⟩

theorem firstAt_importBare_iff (ht : '\n' ∉ t) : importBare.FirstAt t i k l ↔
    k = i + 7 ∧ IsLeast {i | ∃ l, Imports t i l} i ∧ IsGreatest {l | Imports t i l} l := by
  simp only [firstAt_iff, exists_readsAt_importBare_iff ht]
  simp only [readsAt_importBare_iff ht]
  constructor
  · rintro ⟨hi, -, ⟨rfl, h⟩, hl⟩
    exact ⟨rfl, hi, h, fun l' h' => hl ⟨rfl, h'⟩⟩
  · rintro ⟨rfl, hi, h, hl⟩
    refine ⟨hi, ⟨⟨l, rfl, h⟩, ?_⟩, ⟨rfl, h⟩, fun l' h' => hl h'.2⟩
    rintro k ⟨l', rfl, -⟩
    exact le_rfl

end Shape

/-- On a line, the first statement of each shape is told by the places of its words. A pass replaces what stands
between the quotes of the first statement and goes on behind it. Where there is no statement it changes nothing. -/
theorem first_positions (ht : '\n' ∉ t) :
    (∀ e, ((∃ i, ((Shape.binding e).find? (t.drop i)).isSome) ↔ ∃ i j l, Binds e t i j l) ∧
      ∀ i k l, (Shape.binding e).FirstAt t i k l ↔
        ∃ j, k = j + 6 ∧ IsLeast {i | ∃ j l, Binds e t i j l} i ∧ IsGreatest {j | ∃ l, Binds e t i j l} j ∧
          IsGreatest {l | Binds e t i j l} l) ∧
    (((∃ i, (Shape.importBare.find? (t.drop i)).isSome) ↔ ∃ i l, Imports t i l) ∧
      ∀ i k l, Shape.importBare.FirstAt t i k l ↔
        k = i + 7 ∧ IsLeast {i | ∃ l, Imports t i l} i ∧ IsGreatest {l | Imports t i l} l) ∧
    ∀ s : Shape, ((∃ i, (s.find? (t.drop i)).isSome) → ∃ i k l, s.FirstAt t i k l) ∧
      ((∀ i, s.find? (t.drop i) = none) → ∀ f, s.mapModules f t = t) ∧
      ∀ i k l, s.FirstAt t i k l → ∃ q, IsQuote q ∧ t[k]? = some q ∧ t[l]? = some q ∧
        s.find? (t.drop i) = some ⟨(t.take (k + 1)).drop i, (t.take l).drop (k + 1), q, t.drop (l + 1)⟩ ∧
        ∀ f, s.mapModules f t =
          t.take (k + 1) ++ f ((t.take l).drop (k + 1)) ++ q :: s.mapModules f (t.drop (l + 1)) := by
  refine ⟨fun e => ⟨?_, fun i k l => Shape.firstAt_binding_iff ht⟩,
    ⟨?_, fun i k l => Shape.firstAt_importBare_iff ht⟩,
    fun s => ⟨Shape.exists_firstAt, fun h f => Shape.mapModules_of_none h, fun i k l h => h.between⟩⟩
  · simp only [Shape.exists_find?_iff, Shape.exists_readsAt_binding_iff ht]
  · simp only [Shape.exists_find?_iff, Shape.exists_readsAt_importBare_iff ht]

/-- The quote behind the last `from` is not closed, so the one before it counts. -/
theorem first_positions_given_back :
    let line : Text := "import a from \"p\" from 'q\"; import \"r\"".toList
    (IsLeast {i | ∃ j l, Binds false line i j l} 0 ∧ IsGreatest {j | ∃ l, Binds false line 0 j l} 8 ∧
      IsGreatest {l | Binds false line 0 8 l} 37) ∧
    (IsLeast {i | ∃ l, Imports line i l} 28 ∧ IsGreatest {l | Imports line 28 l} 37) ∧
    ∀ f, Shape.importFrom.mapModules f line =
      "import a from \"".toList ++ f "p\" from 'q\"; import \"r".toList ++ ['"'] := by
  intro line
  have hfind : Shape.importFrom.find? line =
      some ⟨"import a from \"".toList, "p\" from 'q\"; import \"r".toList, '"', []⟩ := by
    decide +kernel
  have hbare : (∀ i < 28, Shape.importBare.find? (line.drop i) = none) ∧
      Shape.importBare.find? (line.drop 28) = some ⟨"import \"".toList, "r".toList, '"', []⟩ := by
    decide +kernel
  obtain ⟨hbinding, ⟨-, himport⟩, hall⟩ := first_positions (t := line) (by decide)
  have hfirst : Shape.importFrom.FirstAt line 0 14 37 := ⟨by simp, _, hfind, rfl, rfl⟩
  obtain ⟨j, hj, hleast, hopening, hclose⟩ := ((hbinding false).2 0 14 37).1 hfirst
  obtain rfl : j = 8 := by omega
  obtain ⟨-, hleast', hclose'⟩ := (himport 28 35 37).1 ⟨hbare.1, _, hbare.2, rfl, rfl⟩
  obtain ⟨q, -, hq, -, hfound, hmap⟩ := (hall .importFrom).2.2 0 14 37 hfirst
  refine ⟨⟨hleast, hopening, hclose⟩, ⟨hleast', hclose'⟩, fun f => ?_⟩
  obtain ⟨hlead, hmodule, rfl, hrest⟩ := Found.mk.inj (Option.some.inj (hfound.symm.trans hfind))
  rw [hmap f, hmodule, hrest, Shape.mapModules_nil, ← List.drop_zero (l := line.take (14 + 1)), hlead]

end Statement

end Rehome
