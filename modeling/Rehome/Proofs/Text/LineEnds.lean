import Mathlib.Data.List.Basic
import Rehome.Text.Basic

/-! Line feeds with carriage returns before them, and without them again. -/

namespace Rehome.Text

/-- A carriage return before every line feed. -/
def crlf (t : Text) : Text := t.flatMap fun c => if c = '\n' then ['\r', '\n'] else [c]

variable {t u x y : Text} {c : Char}

@[simp] theorem crlf_nil : crlf [] = [] := rfl

@[simp] theorem crlf_newline (t : Text) : crlf ('\n' :: t) = '\r' :: '\n' :: crlf t := rfl

theorem crlf_cons (hc : c ≠ '\n') (t : Text) : crlf (c :: t) = c :: crlf t := by
  rw [crlf, List.flatMap_cons, if_neg hc]
  rfl

@[simp] theorem crlf_append (t u : Text) : crlf (t ++ u) = crlf t ++ crlf u := List.flatMap_append

theorem crlf_eq_self (h : '\n' ∉ t) : crlf t = t := by
  induction t with
  | nil => rfl
  | cons c t ih =>
    rw [List.mem_cons, not_or] at h
    rw [crlf_cons (Ne.symm h.1), ih h.2]

theorem newline_mem_crlf_iff : '\n' ∈ crlf t ↔ '\n' ∈ t := by
  induction t with
  | nil => rfl
  | cons c t ih =>
    by_cases hc : c = '\n'
    · simp [hc]
    · simp [crlf_cons hc, ih]

theorem crlf_isPrefix (h : t <+: u) : crlf t <+: crlf u := by
  obtain ⟨x, rfl⟩ := h
  exact ⟨crlf x, (crlf_append t x).symm⟩

theorem crlf_eq_nil_iff : crlf t = [] ↔ t = [] := by
  cases t with
  | nil => rfl
  | cons c t =>
    by_cases hc : c = '\n'
    · simp [hc]
    · simp [crlf_cons hc]

theorem eq_singleton_of_crlf (h : crlf t = [c]) : t = [c] ∧ c ≠ '\n' := by
  cases t with
  | nil => cases h
  | cons d t =>
    by_cases hd : d = '\n'
    · simp [hd] at h
    · rw [crlf_cons hd] at h
      obtain ⟨rfl, ht⟩ := List.cons.inj h
      exact ⟨by rw [crlf_eq_nil_iff.1 ht], hd⟩

/-- A character that belongs to no line end stands between two texts whose line ends were changed. -/
theorem cons_of_crlf (hr : c ≠ '\r') (hn : c ≠ '\n') (h : crlf t = x ++ c :: y) :
    ∃ a b, t = a ++ c :: b ∧ crlf a = x ∧ crlf b = y := by
  induction t generalizing x with
  | nil => simp at h
  | cons d t ih =>
    by_cases hd : d = '\n'
    · rw [hd, crlf_newline] at h
      match x with
      | [] => exact absurd (List.cons.inj h).1.symm hr
      | [e] => exact absurd (List.cons.inj (List.cons.inj h).2).1.symm hn
      | e :: e' :: x =>
        obtain ⟨rfl, h'⟩ := List.cons.inj h
        obtain ⟨rfl, h''⟩ := List.cons.inj h'
        obtain ⟨a, b, rfl, rfl, rfl⟩ := ih h''
        exact ⟨'\n' :: a, b, by rw [hd, List.cons_append], rfl, rfl⟩
    · rw [crlf_cons hd] at h
      match x with
      | [] =>
        obtain ⟨rfl, rfl⟩ := List.cons.inj h
        exact ⟨[], t, rfl, rfl, rfl⟩
      | e :: x =>
        obtain ⟨rfl, h'⟩ := List.cons.inj h
        obtain ⟨a, b, rfl, rfl, rfl⟩ := ih h'
        exact ⟨d :: a, b, rfl, crlf_cons hd a, rfl⟩

theorem prefix_of_crlf {w : Text} (hr : '\r' ∉ w) (hn : '\n' ∉ w) (h : crlf t = w ++ y) :
    ∃ b, t = w ++ b ∧ crlf b = y := by
  induction w generalizing t with
  | nil => exact ⟨t, rfl, h⟩
  | cons c w ih =>
    rw [List.mem_cons, not_or] at hr hn
    obtain ⟨a, b, rfl, ha, hb⟩ := cons_of_crlf (x := []) (Ne.symm hr.1) (Ne.symm hn.1) h
    obtain ⟨b, rfl, rfl⟩ := ih hr.2 hn.2 hb
    exact ⟨b, by rw [crlf_eq_nil_iff.1 ha]; rfl, rfl⟩

/-- The same for a word. -/
theorem word_of_crlf {w : Text} (hne : w ≠ []) (hr : '\r' ∉ w) (hn : '\n' ∉ w) (h : crlf t = x ++ w ++ y) :
    ∃ a b, t = a ++ w ++ b ∧ crlf a = x ∧ crlf b = y := by
  obtain ⟨c, w, rfl⟩ := List.exists_cons_of_ne_nil hne
  rw [List.mem_cons, not_or] at hr hn
  rw [List.append_assoc, List.cons_append] at h
  obtain ⟨a, b, rfl, rfl, hb⟩ := cons_of_crlf (Ne.symm hr.1) (Ne.symm hn.1) h
  obtain ⟨b, rfl, rfl⟩ := prefix_of_crlf hr.2 hn.2 hb
  exact ⟨a, b, by simp, rfl, rfl⟩

/-! ### Back to line feeds -/

theorem joinLineEnds_append (h : '\r' ∉ t) (y : Text) : joinLineEnds (t ++ y) = t ++ joinLineEnds y := by
  induction t with
  | nil => rfl
  | cons c t ih =>
    rw [List.mem_cons, not_or] at h
    rw [List.cons_append, joinLineEnds, ih h.2, List.cons_append]
    exact fun _ hc _ => h.1 hc.symm

theorem joinLineEnds_crlf_append (h : '\r' ∉ t) (y : Text) : joinLineEnds (crlf t ++ y) = t ++ joinLineEnds y := by
  induction t with
  | nil => rfl
  | cons c t ih =>
    rw [List.mem_cons, not_or] at h
    by_cases hc : c = '\n'
    · rw [hc, crlf_newline, List.cons_append, List.cons_append, joinLineEnds, ih h.2, List.cons_append]
    · rw [crlf_cons hc, List.cons_append, joinLineEnds, ih h.2, List.cons_append]
      exact fun _ hc _ => h.1 hc.symm

theorem joinLineEnds_crlf_between (hx : '\r' ∉ x) (ht : '\r' ∉ t) (hy : '\r' ∉ y) :
    joinLineEnds (x ++ crlf t ++ y) = x ++ t ++ y := by
  have hend : joinLineEnds y = y := by simpa [joinLineEnds] using joinLineEnds_append hy []
  rw [List.append_assoc, joinLineEnds_append hx, joinLineEnds_crlf_append ht, hend, List.append_assoc]

theorem isPrefix_of_joinLineEnds {w : Text} (hn : '\n' ∉ w) (h : w <+: joinLineEnds t) : w <+: t := by
  fun_induction joinLineEnds t generalizing w with
  | case1 => exact h
  | case2 t ih =>
    cases w with
    | nil => exact List.nil_prefix
    | cons c w =>
      obtain rfl := (List.cons_prefix_cons.1 h).1
      exact absurd List.mem_cons_self hn
  | case3 c t _ ih =>
    cases w with
    | nil => exact List.nil_prefix
    | cons d w =>
      obtain ⟨rfl, h'⟩ := List.cons_prefix_cons.1 h
      exact List.cons_prefix_cons.2 ⟨rfl, ih (fun hc => hn (List.mem_cons_of_mem _ hc)) h'⟩

theorem exists_of_suffix_joinLineEnds (h : u <:+ joinLineEnds t) : ∃ v, v <:+ t ∧ u = joinLineEnds v := by
  fun_induction joinLineEnds t with
  | case1 => exact ⟨[], List.suffix_rfl, List.suffix_nil.1 h⟩
  | case2 t ih =>
    rcases List.suffix_cons_iff.1 h with rfl | h
    · exact ⟨_, List.suffix_rfl, rfl⟩
    · obtain ⟨v, hv, rfl⟩ := ih h
      exact ⟨v, hv.trans ⟨['\r', '\n'], rfl⟩, rfl⟩
  | case3 c t hc ih =>
    rcases List.suffix_cons_iff.1 h with rfl | h
    · exact ⟨c :: t, List.suffix_rfl, by rw [joinLineEnds]; exact hc⟩
    · obtain ⟨v, hv, rfl⟩ := ih h
      exact ⟨v, hv.trans (List.suffix_cons c t), rfl⟩

/-- What lies within a line of the joined text lies within the text. -/
theorem isInfix_of_joinLineEnds {w : Text} (hn : '\n' ∉ w) (h : w <:+: joinLineEnds t) : w <:+: t := by
  obtain ⟨u, hw, hu⟩ := List.infix_iff_prefix_suffix.1 h
  obtain ⟨v, hv, rfl⟩ := exists_of_suffix_joinLineEnds hu
  exact (isPrefix_of_joinLineEnds hn hw).isInfix.trans hv.isInfix

end Rehome.Text
