import Rehome.Proofs.Text.LineEnds
import Rehome.Proofs.Toml.Scanners
import Rehome.Toml.Document

/-! Why documents are refused: because they are malformed, or for the length of a numeral. -/

namespace Rehome.Toml

variable {α β : Type} {t : Text}

/-! ### Values -/

theorem scans_plainValue (t : Text) : Scans t (plainValue t) := by
  unfold plainValue
  split
  · exact (scans_string t).map fun _ _ => List.suffix_rfl
  · split
    · next h => exact .ok ⟨_, (Text.eq_append_of_afterPrefix? h).symm⟩
    · next h => exact .ok ⟨_, (Text.eq_append_of_afterPrefix? h).symm⟩
    · split
      · next h => exact scans_moment h
      · exact scans_number t

theorem scans_keyOfPair (t : Text) : Scans t (keyOfPair t) := by
  unfold keyOfPair
  refine (scans_key t).bind fun ks r _ => ?_
  split
  · next he =>
    cases he
    exact .ok ((skipBlanks_suffix _).trans (List.suffix_cons ..))
  · exact .malformed

/-! ### Tables -/

/-- Whatever is wrong, it is not the length of a numeral. -/
def Plainly (r : Except Error α) : Prop := ∀ e, r = .error e → e = .malformed

namespace Plainly

theorem ok (a : α) : Plainly (.ok a) := nofun

theorem malformed : Plainly (.error .malformed : Except Error α) := fun _ he => by cases he; rfl

theorem bind {r : Except Error α} {f : α → Except Error β} (h : Plainly r) (hf : ∀ a, Plainly (f a)) :
    Plainly (r >>= f) := by
  rcases r with e | a
  · exact fun e he => h e (by cases he; rfl)
  · exact hf a

theorem map {r : Except Error α} {f : α → β} (h : Plainly r) : Plainly (r.map f) := by
  rcases r with e | a
  · exact fun e he => h e (by cases he; rfl)
  · exact ok _

/-- A scan goes on with what was made of its result. -/
theorem scans {r : Except Error α} {f : α → Except Error (β × Text)} (h : Plainly r)
    (hf : ∀ a, Scans t (f a)) : Scans t (r >>= f) := by
  rcases r with e | a
  · obtain rfl := h e rfl
    exact .malformed
  · exact hf a

end Plainly

namespace Fields

variable {enter : Option Node → Entrance} {f : Fields → Except Error Fields} {fs : Fields}

theorem plainly_enterByHeader (o : Option Node) : Plainly (enterByHeader o) := by
  unfold enterByHeader
  split
  all_goals first | exact .ok _ | exact .malformed

theorem plainly_enterByDot (part : Nat) (o : Option Node) : Plainly (enterByDot part o) := by
  unfold enterByDot
  split
  case h_3 =>
    split
    · exact .ok _
    · exact .malformed
  all_goals first | exact .ok _ | exact .malformed

theorem plainly_within (henter : ∀ o, Plainly (enter o)) (hf : ∀ fs, Plainly (f fs)) (ks : List Text) (fs : Fields) :
    Plainly (within enter f ks fs) := by
  induction ks generalizing fs with
  | nil => exact hf fs
  | cons k ks ih => exact (henter _).bind fun _ => (ih _).bind fun _ => .ok _

theorem plainly_atEnd {f : Text → Fields → Except Error Fields} (henter : ∀ o, Plainly (enter o))
    (hf : ∀ k fs, Plainly (f k fs)) (path : List Text) (fs : Fields) : Plainly (atEnd enter f path fs) := by
  unfold atEnd
  split
  · exact plainly_within henter (hf _) _ fs
  · exact .malformed

theorem plainly_define (k : Text) (v : Value) (fs : Fields) : Plainly (define k v fs) := by
  unfold define
  split
  · exact .ok _
  · exact .malformed

theorem plainly_declare (k : Text) (fs : Fields) : Plainly (declare k fs) := by
  unfold declare
  split
  all_goals first | exact .ok _ | exact .malformed

theorem plainly_append (k : Text) (fs : Fields) : Plainly (append k fs) := by
  unfold append
  split
  all_goals first | exact .ok _ | exact .malformed

end Fields

/-! ### Arrays, inline tables and documents -/

theorem scans_value (t : Text) : Scans t (value t) := by
  refine value.induct (fun t => Scans t (value t)) (fun fs t => Scans t (pairs fs t))
    (fun vs t => Scans t (items vs t)) ?array ?table ?plain ?pairs ?items t
  case array =>
    intro r ih
    unfold value
    refine ((scans_skipLines false r).mono (List.suffix_cons '[' r)).took fun _ u hlt _ => ?_
    dsimp only
    split
    · exact .ok (List.suffix_cons ..)
    · exact ih () u hlt
  case table =>
    intro r ih
    unfold value
    have hs := (skipBlanks_suffix r).trans (List.suffix_cons '\x7b' r)
    refine Scans.took (.ok hs) fun _ u hlt _ => ?_
    dsimp only
    split
    · exact .ok (List.suffix_cons ..)
    · exact ih () u hlt
  case plain =>
    intro t hlist htable
    unfold value
    split
    · exact absurd rfl (hlist _)
    · exact absurd rfl (htable _)
    · exact scans_plainValue t
  case pairs =>
    intro fs t ihvalue ih
    unfold pairs
    refine (scans_keyOfPair t).took fun ks r hlt _ => ?_
    refine (ihvalue ks r hlt).bind fun v u _ => ?_
    refine Plainly.scans ?_ fun fs => ?_
    · exact Fields.plainly_atEnd (Fields.plainly_enterByDot 0) (fun k => Fields.plainly_define k v) ks fs
    have hs := skipBlanks_suffix u
    split
    · next h => exact .ok ((List.suffix_cons ..).trans (h ▸ hs))
    · next w h =>
      have hw := (skipBlanks_suffix w).trans ((List.suffix_cons ..).trans (h ▸ hs))
      exact Scans.took (.ok hw) fun _ x hlt _ => ih u fs () x hlt
    · exact .malformed
  case items =>
    intro vs t ihvalue ih
    unfold items
    refine ihvalue.took fun v r _ _ => ?_
    refine (scans_skipLines false r).bind fun _ u _ => ?_
    split
    · next he =>
      cases he
      exact .ok (List.suffix_cons ..)
    · next w he =>
      cases he
      refine ((scans_skipLines false w).mono (List.suffix_cons ..)).took fun _ x hlt _ => ?_
      dsimp only
      split
      · exact .ok (List.suffix_cons ..)
      · exact ih v r () x hlt
    · exact .malformed

namespace Draft

variable (d : Draft) (path : List Text)

theorem plainly_define (v : Value) : Plainly (d.define path v) := by
  refine (Fields.plainly_within Fields.plainly_enterByHeader (fun fs => ?_) _ _).map
  exact Fields.plainly_atEnd (Fields.plainly_enterByDot d.part) (fun k => Fields.plainly_define k v) path fs

theorem plainly_declare : Plainly (d.declare path) :=
  (Fields.plainly_atEnd Fields.plainly_enterByHeader Fields.plainly_declare path _).map

theorem plainly_append : Plainly (d.append path) :=
  (Fields.plainly_atEnd Fields.plainly_enterByHeader Fields.plainly_append path _).map

end Draft

theorem scans_statement (d : Draft) (t : Text) : Scans t (statement d t) := by
  unfold statement
  split
  · exact .ok List.suffix_rfl
  · exact .ok List.suffix_rfl
  · exact .ok List.suffix_rfl
  · next t =>
    refine .mono (.bind (scans_key _) fun path r _ => ?_) ((skipBlanks_suffix t).trans ⟨['[', '['], rfl⟩)
    split
    · next he =>
      cases he
      exact (d.plainly_append _).scans fun _ => .ok ⟨[']', ']'], rfl⟩
    · exact .malformed
  · next t _ =>
    refine .mono (.bind (scans_key _) fun path r _ => ?_) ((skipBlanks_suffix t).trans (List.suffix_cons ..))
    split
    · next he =>
      cases he
      exact (d.plainly_declare _).scans fun _ => .ok (List.suffix_cons ..)
    · exact .malformed
  · refine (scans_keyOfPair _).bind fun path r _ => (scans_value r).bind fun v u _ => ?_
    exact (d.plainly_define path v).scans fun _ => .ok List.suffix_rfl

theorem refuses_lines (d : Draft) (t : Text) : Refuses t (lines d t) := by
  induction d, t using lines.induct with
  | case1 d t ih =>
    unfold lines
    refine ((scans_statement d _).mono (skipBlanks_suffix t)).refuses_bind fun d r _ => ?_
    refine ((scans_skipComment _).mono (skipBlanks_suffix r)).refuses_bind fun _ u _ => ?_
    split
    · exact .ok _
    · next v he =>
      cases he
      exact Scans.refuses_took (.ok (List.suffix_cons ..)) fun _ w hlt _ => ih d () w hlt
    · exact .malformed

/-- A document is refused because it is malformed, or because of a numeral in it. -/
theorem refuses_parse (t : Text) : Refuses t (parse t) := by
  intro e he
  unfold parse at he
  rcases hl : lines {} t.joinLineEnds with e' | d
  · rw [hl] at he
    cases he
    cases refuses_lines _ _ _ hl with
    | malformed => exact .malformed
    | numeral h =>
      obtain ⟨hn, w, hw, hdigits, hcount⟩ := h
      have hnewline : '\n' ∉ w := fun hc => (hdigits _ hc).elim (by decide) (by decide)
      exact .numeral ⟨hn, w, Text.isInfix_of_joinLineEnds hnewline hw, hdigits, hcount⟩
  · rw [hl] at he
    cases he

end Rehome.Toml
