import Rehome.Proofs.Path.Normal
import Rehome.Proofs.Reference.Relocation

/-! A relative reference as instructions to a stack of segments. It is read from the directories of the file
that holds it: a name goes on the stack, `..` takes a name off, and stays where there is none. So what is
left of a reference that climbs above its namespace is a block of `..`, as high as it ever climbed. -/

namespace Rehome.Reference

open Rehome.Path

/-- Segments are read over a stack, the innermost segment first, and leave another one. -/
inductive Reads : List Text → List Text → List Text → Prop where
  | done {st : List Text} : Reads st [] st
  | skip {s : Text} {st ss fin : List Text} : s = [] ∨ s = here → Reads st ss fin → Reads st (s :: ss) fin
  | enter {s : Text} {st ss fin : List Text} : IsPlain s → Reads (s :: st) ss fin → Reads st (s :: ss) fin
  | leave {top : Text} {st ss fin : List Text} : IsPlain top → Reads st ss fin →
      Reads (top :: st) (up :: ss) fin
  | climb {st ss fin : List Text} : (∀ top ∈ st.head?, ¬ IsPlain top) → Reads (up :: st) ss fin →
      Reads st (up :: ss) fin

variable {st ss fin : List Text}

/-- What is left is what a run leaves. -/
theorem Reads.eq (h : Reads st ss fin) (hst : ∀ t ∈ st, t = up ∨ IsPlain t) :
    resolveStack false st ss = fin := by
  induction h with
  | done => rfl
  | @skip s st _ _ hs _ ih =>
    have hpush : push false st s = st := if_pos hs
    rw [resolveStack_cons, hpush]
    exact ih hst
  | enter hs _ ih =>
    rw [resolveStack_cons, push_plain _ _ hs]
    exact ih (List.forall_mem_cons.2 ⟨.inr hs, hst⟩)
  | leave htop _ ih =>
    rw [resolveStack_cons, push_up_cons _ _ htop.ne_up]
    exact ih (List.forall_mem_cons.1 hst).2
  | climb hhead _ ih =>
    have hup : ∀ top ∈ _, top = up := fun top htop =>
      (hst top (List.mem_of_mem_head? htop)).resolve_right (hhead top htop)
    rw [resolveStack_cons, push_up_of_head hup]
    exact ih (List.forall_mem_cons.2 ⟨.inl rfl, hst⟩)

theorem reads_resolveStack (hss : ∀ s ∈ ss, '/' ∉ s) (hst : ∀ t ∈ st, t = up ∨ IsPlain t) :
    Reads st ss (resolveStack false st ss) := by
  induction ss generalizing st with
  | nil => exact .done
  | cons s ss ih =>
    obtain ⟨hs, hrest⟩ := List.forall_mem_cons.1 hss
    rw [resolveStack_cons]
    rcases segment_cases hs with rfl | rfl | rfl | hp
    · exact .skip (.inl rfl) (ih hrest hst)
    · exact .skip (.inr rfl) (ih hrest hst)
    · by_cases hhead : ∀ top ∈ st.head?, top = up
      · rw [push_up_of_head hhead]
        refine .climb (fun top htop => hhead top htop ▸ not_isPlain_up) (ih hrest ?_)
        exact List.forall_mem_cons.2 ⟨.inl rfl, hst⟩
      · rcases st with _ | ⟨top, st⟩
        · exact absurd (fun _ h => by cases h) hhead
        obtain ⟨htop, hst⟩ := List.forall_mem_cons.1 hst
        have hne : top ≠ up := fun he => hhead fun t ht => (Option.some.inj ht).symm.trans he
        rw [push_up_cons _ _ hne]
        exact .leave (htop.resolve_left hne) (ih hrest hst)
    · rw [push_plain _ _ hp]
      exact .enter hp (ih hrest (List.forall_mem_cons.2 ⟨.inr hp, hst⟩))

theorem reads_iff (hss : ∀ s ∈ ss, '/' ∉ s) (hst : ∀ t ∈ st, t = up ∨ IsPlain t) :
    Reads st ss fin ↔ fin = resolveStack false st ss :=
  ⟨fun h => (h.eq hst).symm, fun h => h ▸ reads_resolveStack hss hst⟩

/-- A relative reference in the file `name` of the directory `dirs` reads its segments over the directory.
What is left, with a slash if the reference ends in one, is what it resolves to: a block of as many `..` as the
reference ever led up beyond `dirs`, and names behind it. -/
theorem resolve_eq_of_reads {dirs : List Text} {name ref : Text} (hdirs : ∀ s ∈ dirs, IsPlain s)
    (hname : IsPlain name) (href : isRelative ref = true) :
    ∃ fin k names, (∀ st, Reads dirs.reverse (segments ref.slashed) st ↔ st = fin) ∧
      resolve (ofSegments (dirs ++ [name])) ref =
        (if fin = [] then here else ofSegments fin.reverse) ++ (if endsInSlash ref.slashed then ['/'] else []) ∧
      fin.reverse = List.replicate k up ++ names ∧ (∀ s ∈ names, IsPlain s) ∧
      IsPeak dirs.length (segments ref.slashed) k := by
  have hsegs : ∀ s ∈ segments ref.slashed, '/' ∉ s := fun s => slash_not_mem_of_mem_segments
  have hdirs' : ∀ s ∈ dirs.reverse, IsPlain s := fun s hs => hdirs s (List.mem_reverse.1 hs)
  obtain ⟨names, k, hrun, hnames, hpeak⟩ := resolveStack_climbs hsegs hdirs' 0
  rw [List.replicate_zero, List.append_nil, Nat.zero_add] at hrun
  rw [List.length_reverse] at hpeak
  have hstack : ∀ s ∈ names ++ List.replicate k up, s ≠ [] ∧ '/' ∉ s := fun s => ne_nil_of_mem_climbed hnames
  have hanch : Anchored [] (name :: dirs.reverse) :=
    ⟨.inl rfl, List.forall_mem_cons.2 ⟨hname, hdirs'⟩, .inr (List.cons_ne_nil _ _)⟩
  have hcurrent : ofStack [] (name :: dirs.reverse) = ofSegments (dirs ++ [name]) := by
    rw [hanch.ofStack_eq, List.reverse_cons, List.reverse_reverse, List.nil_append]
  refine ⟨names ++ List.replicate k up, k, names.reverse, fun st => ?_, ?_, ?_, ?_, hpeak⟩
  · rw [reads_iff hsegs fun t ht => .inr (hdirs' t ht), hrun]
  · rw [← hcurrent, resolve_ofStack hanch href hrun (endsInSlash_ofStack_nil hstack),
      ofStack_nil_eq fun s hs => (hstack s hs).1]
  · rw [List.reverse_append, List.reverse_replicate]
  · exact fun s hs => hnames s (List.mem_reverse.1 hs)

/-- The reference leads out of `a/b` and above it, by backslashes and past a name of three dots. -/
theorem resolve_eq_of_reads_above :
    ∃ fin k names, (∀ st, Reads ["b".toList, "a".toList]
        (segments (Text.slashed "..\\../..//.../../../x/".toList)) st ↔ st = fin) ∧
      resolve (ofSegments (["a".toList, "b".toList] ++ ["c".toList])) "..\\../..//.../../../x/".toList =
        (if fin = [] then here else ofSegments fin.reverse) ++
          (if endsInSlash (Text.slashed "..\\../..//.../../../x/".toList) then ['/'] else []) ∧
      fin.reverse = List.replicate k up ++ names ∧ (∀ s ∈ names, IsPlain s) ∧
      IsPeak 2 (segments (Text.slashed "..\\../..//.../../../x/".toList)) k :=
  resolve_eq_of_reads (show ∀ s ∈ ["a".toList, "b".toList], IsPlain s by decide)
    (show IsPlain "c".toList by decide)
    (show isRelative "..\\../..//.../../../x/".toList = true by decide)

example : resolve "a/b/c".toList "..\\../..//.../../../x/".toList = "../../x/".toList := by decide

end Rehome.Reference
