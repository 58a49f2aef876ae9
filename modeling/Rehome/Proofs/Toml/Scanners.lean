import Mathlib.Data.List.Infix
import Rehome.Toml.Key
import Rehome.Toml.Moment
import Rehome.Toml.Number

/-! What scanners leave, and why they refuse. A scanner takes something off the head of a text, so it leaves an
end of it. Only in numerals there is a reason to refuse a text that is well formed. -/

namespace Rehome.Toml

variable {α β : Type} {s t u : Text} {n : Nat} {e : Error}

/-- More digits than may be read stand in a row somewhere in the text, with nothing but underscores between
them. -/
def Overlong (t : Text) (n : Nat) : Prop :=
  Number.maxDigits < n ∧
    ∃ w, w <:+: t ∧ (∀ c ∈ w, Text.isAsciiDigit c = true ∨ c = '_') ∧ w.countP Text.isAsciiDigit = n

theorem Overlong.mono (h : Overlong t n) (hs : t <:+: u) : Overlong u n := by
  obtain ⟨hn, w, hw, hdigits⟩ := h
  exact ⟨hn, w, hw.trans hs, hdigits⟩

/-- What a text may be refused for. -/
inductive Refusal (t : Text) : Error → Prop where
  | malformed : Refusal t .malformed
  | numeral {n : Nat} (h : Overlong t n) : Refusal t (.hugeNumeral n)

theorem Refusal.mono (h : Refusal t e) (hs : t <:+: u) : Refusal u e := by
  cases h with
  | malformed => exact .malformed
  | numeral h => exact .numeral (h.mono hs)

/-- If the text is refused, there is a reason. -/
def Refuses (t : Text) (r : Except Error β) : Prop := ∀ e, r = .error e → Refusal t e

/-- What a scanner may make of a text. -/
structure Scans (t : Text) (r : Except Error (α × Text)) : Prop where
  rest : ∀ a u, r = .ok (a, u) → u <:+ t
  refuses : Refuses t r

theorem Refuses.ok (b : β) : Refuses t (.ok b) := nofun

theorem Refuses.malformed : Refuses t (.error .malformed : Except Error β) :=
  fun _ he => by cases he; exact .malformed

theorem Refuses.mono {r : Except Error β} (h : Refuses t r) (hs : t <:+: u) : Refuses u r :=
  fun e he => (h e he).mono hs

namespace Scans

variable {r : Except Error (α × Text)}

theorem ok {a : α} (h : u <:+ t) : Scans t (.ok (a, u)) :=
  ⟨fun _ _ he => by cases he; exact h, .ok _⟩

theorem malformed : Scans t (.error .malformed : Except Error (α × Text)) := ⟨nofun, .malformed⟩

theorem mono (h : Scans t r) (hs : t <:+ u) : Scans u r :=
  ⟨fun a v he => (h.rest a v he).trans hs, h.refuses.mono hs.isInfix⟩

theorem refuses_bind {f : α × Text → Except Error β} (h : Scans t r)
    (hf : ∀ a u, r = .ok (a, u) → Refuses u (f (a, u))) : Refuses t (r >>= f) := by
  rcases r with e | ⟨a, u⟩
  · exact fun e he => h.refuses e (by cases he; rfl)
  · exact (hf a u rfl).mono (h.rest a u rfl).isInfix

/-- What is left by the first scanner is given to the next one. -/
theorem bind {f : α × Text → Except Error (β × Text)} (h : Scans t r)
    (hf : ∀ a u, r = .ok (a, u) → Scans u (f (a, u))) : Scans t (r >>= f) := by
  refine ⟨fun b v he => ?_, h.refuses_bind fun a u hr => (hf a u hr).refuses⟩
  rcases r with e | ⟨a, u⟩
  · cases he
  · exact ((hf a u rfl).rest b v he).trans (h.rest a u rfl)

/-- That less is left may be checked in between. -/
theorem took_eq (r : Except Error (α × Text)) (f : { r : α × Text // r.2.length < s.length } → Except Error β) :
    (Toml.took s r >>= f) = r >>= fun r => if h : r.2.length < s.length then f ⟨r, h⟩ else .error .malformed := by
  rcases r with e | ⟨a, u⟩
  · rfl
  · by_cases h : (a, u).2.length < s.length
    · rw [show Toml.took s (.ok (a, u)) = .ok ⟨(a, u), h⟩ from dif_pos h]
      show f ⟨(a, u), h⟩ = if h : (a, u).2.length < s.length then f ⟨(a, u), h⟩ else .error .malformed
      rw [dif_pos h]
    · rw [show Toml.took s (.ok (a, u)) = .error .malformed from dif_neg h]
      show _ = if h : (a, u).2.length < s.length then f ⟨(a, u), h⟩ else .error .malformed
      rw [dif_neg h]
      rfl

theorem refuses_took {f : { r : α × Text // r.2.length < s.length } → Except Error β} (h : Scans t r)
    (hf : ∀ a u (hlt : u.length < s.length), r = .ok (a, u) → Refuses u (f ⟨(a, u), hlt⟩)) :
    Refuses t (Toml.took s r >>= f) := by
  rw [took_eq]
  refine h.refuses_bind fun a u hr => ?_
  split
  · next hlt => exact hf a u hlt hr
  · exact .malformed

theorem took {f : { r : α × Text // r.2.length < s.length } → Except Error (β × Text)} (h : Scans t r)
    (hf : ∀ a u (hlt : u.length < s.length), r = .ok (a, u) → Scans u (f ⟨(a, u), hlt⟩)) :
    Scans t (Toml.took s r >>= f) := by
  rw [took_eq]
  refine h.bind fun a u hr => ?_
  split
  · next hlt => exact hf a u hlt hr
  · exact .malformed

theorem map {f : α × Text → β × Text} (h : Scans t r) (hf : ∀ a u, (f (a, u)).2 <:+ u) :
    Scans t (r.map f) := by
  rcases r with e | ⟨a, u⟩
  · exact ⟨nofun, fun e he => h.refuses e (by cases he; rfl)⟩
  · exact ok ((hf a u).trans (h.rest a u rfl))

end Scans

/-! ### Blanks and comments -/

theorem skipBlanks_suffix (t : Text) : skipBlanks t <:+ t := List.dropWhile_suffix _

theorem scans_skipComment (t : Text) : Scans t (skipComment t) := by
  unfold skipComment
  split
  · split
    · exact .malformed
    · exact .ok ((List.dropWhile_suffix _).trans (List.suffix_cons ..))
  · exact .ok List.suffix_rfl

theorem scans_skipLines (inComment : Bool) (t : Text) : Scans t (skipLines inComment t) := by
  fun_induction skipLines inComment t with
  | case1 => exact .ok List.suffix_rfl
  | case2 _ t ih => exact ih.mono (List.suffix_cons '\n' t)
  | case3 => exact .malformed
  | case4 c t _ _ ih => exact ih.mono (List.suffix_cons c t)
  | case5 _ c t _ _ _ ih => exact ih.mono (List.suffix_cons c t)
  | case6 _ t _ _ _ ih => exact ih.mono (List.suffix_cons '#' t)
  | case7 => exact .ok List.suffix_rfl

/-! ### Strings and keys -/

theorem scans_scalar (width : Nat) (t : Text) : Scans t (scalar width t) := by
  unfold scalar
  split
  · dsimp only
    split
    · exact .ok (List.drop_suffix ..)
    · exact .malformed
  · exact .malformed

theorem scans_skipLineEnd (t : Text) : Scans t (skipLineEnd t) := by
  unfold skipLineEnd
  split
  · exact .ok (List.nil_suffix ..)
  · next u h =>
    have hs := skipBlanks_suffix t
    rw [h] at hs
    exact .ok ((List.dropWhile_suffix _).trans ((List.suffix_cons ..).trans hs))
  · exact .malformed

theorem scans_escape (multiline : Bool) (t : Text) : Scans t (escape multiline t) := by
  unfold escape
  split
  case h_8 u => exact ((scans_scalar 4 u).mono (List.suffix_cons ..)).map fun _ _ => List.suffix_rfl
  case h_9 u => exact ((scans_scalar 8 u).mono (List.suffix_cons ..)).map fun _ _ => List.suffix_rfl
  case h_10 =>
    split
    · exact (scans_skipLineEnd _).map fun _ _ => List.suffix_rfl
    · exact .malformed
  case h_11 => exact .malformed
  all_goals exact .ok (List.suffix_cons ..)

theorem scans_basic (multiline : Bool) (t : Text) : Scans t (basic multiline t) := by
  fun_induction basic multiline t with
  | case1 => exact .malformed
  | case2 _ t => exact .ok ⟨['"', '"', '"'], rfl⟩
  | case3 _ t _ ih => exact (ih.mono (List.suffix_cons '"' t)).map fun _ _ => List.suffix_rfl
  | case4 t => exact .ok (List.suffix_cons '"' t)
  | case5 t ih =>
    refine ((scans_escape multiline t).mono (List.suffix_cons '\\' t)).took fun u r hlt _ => ?_
    exact (ih u r hlt).bind fun _ _ _ => .ok List.suffix_rfl
  | case6 => exact .malformed
  | case7 c t _ _ _ ih => exact (ih.mono (List.suffix_cons c t)).map fun _ _ => List.suffix_rfl

theorem scans_literal (multiline : Bool) (t : Text) : Scans t (literal multiline t) := by
  fun_induction literal multiline t with
  | case1 => exact .malformed
  | case2 t _ r hr =>
    obtain rfl := Text.eq_append_of_afterPrefix? hr
    exact .ok ⟨['\'', '\'', '\''], rfl⟩
  | case3 t _ _ ih => exact (ih.mono (List.suffix_cons '\'' t)).map fun _ _ => List.suffix_rfl
  | case4 t => exact .ok (List.suffix_cons '\'' t)
  | case5 => exact .malformed
  | case6 c t _ _ ih => exact (ih.mono (List.suffix_cons c t)).map fun _ _ => List.suffix_rfl

theorem dropFirstLineEnd_suffix (t : Text) : dropFirstLineEnd t <:+ t := by
  unfold dropFirstLineEnd
  split
  · exact List.suffix_cons ..
  · exact List.suffix_rfl

theorem withLateQuotes_suffix (mark : Char) (u t : Text) : (withLateQuotes mark (u, t)).2 <:+ t := by
  unfold withLateQuotes
  dsimp only
  split
  · next c d r =>
    split
    · split
      · exact ⟨[c, d], rfl⟩
      · exact List.suffix_cons ..
    · exact List.suffix_rfl
  · split
    · exact List.nil_suffix
    · exact List.suffix_rfl
  · exact List.suffix_rfl

theorem scans_lineString (t : Text) : Scans t (lineString t) := by
  unfold lineString
  split
  · exact (scans_basic ..).mono (List.suffix_cons ..)
  · exact (scans_literal ..).mono (List.suffix_cons ..)
  · exact .malformed

theorem scans_string (t : Text) : Scans t (string t) := by
  unfold string
  split
  · next t =>
    refine Scans.map (.mono (scans_basic ..) ?_) (withLateQuotes_suffix _)
    exact (dropFirstLineEnd_suffix t).trans ⟨['"', '"', '"'], rfl⟩
  · next t =>
    refine Scans.map (.mono (scans_literal ..) ?_) (withLateQuotes_suffix _)
    exact (dropFirstLineEnd_suffix t).trans ⟨['\'', '\'', '\''], rfl⟩
  · exact scans_lineString t

theorem scans_keyPart (t : Text) : Scans t (keyPart t) := by
  unfold keyPart
  split
  · exact scans_lineString t
  · exact .ok (List.dropWhile_suffix _)

theorem scans_key (t : Text) : Scans t (key t) := by
  induction t using key.induct with
  | case1 t ih =>
    unfold key
    refine (scans_keyPart t).took fun k r _ _ => ?_
    dsimp only
    have hs := skipBlanks_suffix r
    split
    · next u hu =>
      rw [hu] at hs
      have hmore := (skipBlanks_suffix u).trans ((List.suffix_cons ..).trans hs)
      refine Scans.took (.ok hmore) fun _ v hlt _ => ?_
      exact (ih () v hlt).bind fun _ _ _ => .ok List.suffix_rfl
    · exact .ok hs

/-! ### Numbers and moments -/

theorem moreDigits_spec {isDigit : Char → Bool} (hunder : isDigit '_' = false) (t : Text) :
    ∃ w, t = w ++ (moreDigits isDigit t).2 ∧ (∀ c ∈ w, isDigit c = true ∨ c = '_') ∧
      w.countP isDigit = (moreDigits isDigit t).1.length := by
  fun_induction moreDigits isDigit t with
  | case1 => exact ⟨[], rfl, nofun, rfl⟩
  | case2 d t hd ds r hmore ih =>
    rw [hmore] at ih
    obtain ⟨w, rfl, hw, hcount⟩ := ih
    refine ⟨'_' :: d :: w, rfl, ?_, ?_⟩
    · exact List.forall_mem_cons.2 ⟨.inr rfl, List.forall_mem_cons.2 ⟨.inl hd, hw⟩⟩
    · rw [List.countP_cons_of_neg (by simp [hunder]), List.countP_cons_of_pos hd, hcount]
      rfl
  | case3 d t => exact ⟨[], rfl, nofun, rfl⟩
  | case4 c t _ hc ds r hmore ih =>
    rw [hmore] at ih
    obtain ⟨w, rfl, hw, hcount⟩ := ih
    refine ⟨c :: w, rfl, List.forall_mem_cons.2 ⟨.inl hc, hw⟩, ?_⟩
    rw [List.countP_cons_of_pos hc, hcount]
    rfl
  | case5 c t => exact ⟨[], rfl, nofun, rfl⟩

theorem digits?_spec {isDigit : Char → Bool} (hunder : isDigit '_' = false) {ds : Text}
    (h : digits? isDigit t = some (ds, u)) :
    ∃ w, t = w ++ u ∧ (∀ c ∈ w, isDigit c = true ∨ c = '_') ∧ w.countP isDigit = ds.length := by
  unfold digits? at h
  split at h
  · cases h
  · next c t =>
    split at h
    · next hc =>
      cases h
      obtain ⟨w, ht, hw, hcount⟩ := moreDigits_spec hunder t
      refine ⟨c :: w, congrArg (c :: ·) ht, List.forall_mem_cons.2 ⟨.inl hc, hw⟩, ?_⟩
      rw [List.countP_cons_of_pos hc, hcount]
      rfl
    · cases h

theorem digits?_suffix {isDigit : Char → Bool} (hunder : isDigit '_' = false) {ds : Text}
    (h : digits? isDigit t = some (ds, u)) : u <:+ t := by
  obtain ⟨w, rfl, -⟩ := digits?_spec hunder h
  exact List.suffix_append ..

theorem basedNumber?_suffix {v : Value} (h : basedNumber? t = some (v, u)) : u <:+ t := by
  have hdigits : ∀ {isDigit : Char → Bool} {base : Nat} {t : Text} (c d : Char), isDigit '_' = false →
      (digits? isDigit t).map (fun p => (Value.integer (numeral base p.1), p.2)) = some (v, u) →
        u <:+ c :: d :: t := by
    intro isDigit base t c d hunder h
    obtain ⟨⟨ds, r⟩, hds, he⟩ := Option.map_eq_some_iff.1 h
    cases he
    exact (digits?_suffix hunder hds).trans ⟨[c, d], rfl⟩
  unfold basedNumber? at h
  split at h
  · exact hdigits _ _ (by decide) h
  · exact hdigits _ _ (by decide) h
  · exact hdigits _ _ (by decide) h
  · cases h

theorem wholePart?_spec {ds : Text} (h : wholePart? t = some (ds, u)) :
    ∃ w, t = w ++ u ∧ (∀ c ∈ w, Text.isAsciiDigit c = true ∨ c = '_') ∧
      w.countP Text.isAsciiDigit = ds.length := by
  unfold wholePart? at h
  split at h
  · cases h
    refine ⟨['0'], rfl, fun c hc => .inl ?_, rfl⟩
    rw [List.mem_singleton.1 hc]
    rfl
  · exact digits?_spec (by decide) h

theorem fractionPart?_suffix {ds : Text} (h : fractionPart? t = some (ds, u)) : u <:+ t := by
  unfold fractionPart? at h
  split at h
  · exact (digits?_suffix (by decide) h).trans (List.suffix_cons ..)
  · cases h

theorem cutSign_suffix (t : Text) : (Number.cutSign t).2 <:+ t := by
  unfold Number.cutSign
  split
  · exact List.suffix_cons ..
  · exact List.suffix_cons ..
  · exact List.suffix_rfl

theorem exponentPart?_suffix {i : Int} (h : exponentPart? t = some (i, u)) : u <:+ t := by
  unfold exponentPart? at h
  split at h
  · split at h
    · obtain ⟨⟨ds, r⟩, hds, he⟩ := Option.map_eq_some_iff.1 h
      cases he
      exact (digits?_suffix (by decide) hds).trans ((cutSign_suffix _).trans (List.suffix_cons ..))
    · cases h
  · cases h

theorem getD_suffix {o : Option (α × Text)} (h : ∀ a u, o = some (a, u) → u <:+ t) :
    (o.map (·.2)).getD t <:+ t := by
  rcases o with _ | ⟨a, u⟩
  · exact List.suffix_rfl
  · exact h a u rfl

/-- A decimal is too long only by the digits of its whole part. -/
theorem scans_decimal {r : Except Error (Value × Text)} (h : decimal? t = some r) : Scans t r := by
  obtain ⟨⟨whole, u⟩, hwhole, rfl⟩ := Option.map_eq_some_iff.1 h
  obtain ⟨w, hw, hdigits, hcount⟩ := wholePart?_spec hwhole
  have hsign := cutSign_suffix t
  have hu : u <:+ t := .trans ⟨w, hw.symm⟩ hsign
  have hfraction : ((fractionPart? u).map (·.2)).getD u <:+ u :=
    getD_suffix fun _ _ => fractionPart?_suffix
  have hexponent := getD_suffix fun _ _ => exponentPart?_suffix (t := ((fractionPart? u).map (·.2)).getD u)
  have hrest := hexponent.trans (hfraction.trans hu)
  dsimp only
  split
  · exact .ok hrest
  · split
    · next hlong =>
      refine ⟨nofun, fun e he => ?_⟩
      cases he
      exact .numeral ⟨hlong, w, .trans ⟨[], u, hw.symm⟩ hsign.isInfix, hdigits, hcount⟩
    · exact .ok hrest

theorem namedNumber?_suffix {v : Value} (h : namedNumber? t = some (v, u)) : u <:+ t := by
  have hname : ∀ (name : Text) (x : Value),
      (Text.afterPrefix? name (Number.cutSign t).2).map (fun r => (x, r)) = some (v, u) → u <:+ t := by
    intro name x h
    obtain ⟨r, hr, he⟩ := Option.map_eq_some_iff.1 h
    cases he
    exact .trans ⟨name, (Text.eq_append_of_afterPrefix? hr).symm⟩ (cutSign_suffix t)
  rcases Option.or_eq_some_iff.1 h with h | ⟨-, h⟩
  · exact hname _ _ h
  · exact hname _ _ h

theorem scans_number (t : Text) : Scans t (number t) := by
  unfold number
  split
  · next h => exact .ok (basedNumber?_suffix h)
  · split
    · next h => exact scans_decimal h
    · split
      · next h => exact .ok (namedNumber?_suffix h)
      · exact .malformed

theorem pair?_suffix {low high : Nat} (h : pair? low high t = some (n, u)) : u <:+ t := by
  unfold pair? at h
  split at h
  · split at h
    · dsimp only at h
      split at h
      · cases h
        exact ⟨[_, _], rfl⟩
      · cases h
    · cases h
  · cases h

theorem mark?_suffix {c : Char} (h : mark? c t = some u) : u <:+ t := by
  unfold mark? at h
  split at h
  · split at h
    · cases h
      exact List.suffix_cons ..
    · cases h
  · cases h

theorem afterFraction_suffix (t : Text) : afterFraction t <:+ t := by
  unfold afterFraction
  split
  · split
    · exact (List.dropWhile_suffix _).trans ⟨['.', _], rfl⟩
    · exact List.suffix_rfl
  · exact List.suffix_rfl

theorem afterTime?_suffix (h : afterTime? t = some u) : u <:+ t := by
  simp only [afterTime?, Option.bind_eq_bind, Option.bind_eq_some_iff, Prod.exists] at h
  obtain ⟨_, t₁, h₁, t₂, h₂, _, t₃, h₃, t₄, h₄, _, t₅, h₅, he⟩ := h
  cases he
  exact (afterFraction_suffix t₅).trans ((pair?_suffix h₅).trans ((mark?_suffix h₄).trans
    ((pair?_suffix h₃).trans ((mark?_suffix h₂).trans (pair?_suffix h₁)))))

theorem afterHours?_suffix (h : afterHours? t = some u) : u <:+ t := by
  simp only [afterHours?, Option.bind_eq_bind, Option.bind_eq_some_iff, Prod.exists] at h
  obtain ⟨_, t₁, h₁, t₂, h₂, _, t₃, h₃, he⟩ := h
  cases he
  exact (pair?_suffix h₃).trans ((mark?_suffix h₂).trans (pair?_suffix h₁))

theorem afterOffset_suffix (t : Text) : afterOffset t <:+ t := by
  unfold afterOffset
  split
  · exact List.suffix_rfl
  · next c t =>
    split
    · exact List.suffix_cons ..
    · split
      · rcases h : afterHours? t with _ | u
        · exact List.suffix_rfl
        · exact (afterHours?_suffix h).trans (List.suffix_cons ..)
      · exact List.suffix_rfl

theorem date?_suffix {d : Nat × Nat × Nat} (h : date? t = some (d, u)) : u <:+ t := by
  simp only [date?, Option.bind_eq_bind, Option.bind_eq_some_iff, Prod.exists] at h
  obtain ⟨_, t₁, h₁, _, t₂, h₂, t₃, h₃, _, t₄, h₄, t₅, h₅, _, t₆, h₆, he⟩ := h
  cases he
  exact (pair?_suffix h₆).trans ((mark?_suffix h₅).trans ((pair?_suffix h₄).trans
    ((mark?_suffix h₃).trans ((pair?_suffix h₂).trans (pair?_suffix h₁)))))

theorem afterDate_suffix (t : Text) : afterDate t <:+ t := by
  unfold afterDate
  split
  · exact List.suffix_rfl
  · split
    · split
      · next h => exact (afterOffset_suffix _).trans ((afterTime?_suffix h).trans (List.suffix_cons ..))
      · exact List.suffix_rfl
    · exact List.suffix_rfl

theorem scans_moment {v : Value} {r : Except Error Text} (h : afterMoment? t = some r) :
    Scans t (r.map fun u => (v, u)) := by
  unfold afterMoment? at h
  split at h
  · next hdate =>
    split at h
    · cases h
      exact .ok ((afterDate_suffix _).trans (date?_suffix hdate))
    · cases h
      exact .malformed
  · obtain ⟨u, hu, rfl⟩ := Option.map_eq_some_iff.1 h
    exact .ok (afterTime?_suffix hu)

end Rehome.Toml
