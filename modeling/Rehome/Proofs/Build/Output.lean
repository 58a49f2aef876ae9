import Rehome.Build.Output
import Rehome.Proofs.FileSystem.Names
import Rehome.Proofs.Program.Keeps

/-! Writing a file touches the heads of its path, one after the other, and then the path itself. -/

namespace Rehome.Build

open FileSystem (pathNames)

theorem lastStep_eq (path : Text) :
    lastStep path = Path.split path ∨ lastStep path = Path.split (Path.split path).1 := by
  unfold lastStep
  split
  · next head hs => exact .inr (by rw [hs])
  · exact .inl rfl

theorem lastStep_fst_isPrefix (path : Text) : (lastStep path).1 <+: path := by
  have h := FileSystem.split_fst_isPrefix path
  rcases lastStep_eq path with he | he <;> rw [he]
  · exact h
  · exact (FileSystem.split_fst_isPrefix _).trans h

theorem pathNames_split_fst_isPrefix (path : Text) :
    pathNames (Path.split path).1 <+: pathNames path :=
  ⟨_, (FileSystem.pathNames_split path).symm⟩

theorem pathNames_lastStep_isPrefix (path : Text) : pathNames (lastStep path).1 <+: pathNames path := by
  have h := pathNames_split_fst_isPrefix path
  rcases lastStep_eq path with he | he <;> rw [he]
  · exact h
  · exact (pathNames_split_fst_isPrefix _).trans h

section Keeps

variable {I : Host → Prop}

theorem makeLeaf_keeps {path : Text}
    (h : ∀ s, I s → I (s.answer (.makeDirectory path)).2) :
    (makeLeaf path).Keeps I fun _ => True := by
  refine (Action.Keeps.makeDirectory h).tryCatch fun f => ?_
  cases f with
  | system e q =>
    refine (Action.Keeps.isDirectory path).bind fun found _ => ?_
    cases found with
    | true => exact .pure trivial
    | false => exact .throw _
  | _ => exact .throw _

theorem unlessThere_keeps {x : Action Unit} (h : x.Keeps I fun _ => True) :
    (unlessThere x).Keeps I fun _ => True := by
  refine h.tryCatch fun f => ?_
  split
  · exact .pure trivial
  · exact .throw _

/-- Making directories keeps whatever is kept by making each of the directories on the way. -/
theorem makeDirectories_keeps {P : Text → Prop}
    (hhead : ∀ path, P path → (lastStep path).1 ≠ [] → P (lastStep path).1)
    (hmake : ∀ path, P path → ∀ s, I s → I (s.answer (.makeDirectory path)).2)
    {path : Text} (hp : P path) : (makeDirectories path).Keeps I fun _ => True := by
  have hleaf := makeLeaf_keeps (hmake path hp)
  unfold makeDirectories
  dsimp only
  split
  · next hstep =>
    refine (Action.Keeps.exists _).bind fun there _ => ?_
    split
    · exact hleaf
    · refine (unlessThere_keeps ?_).bind fun _ _ => ?_
      · have := length_lastStep_lt hstep.2
        exact makeDirectories_keeps hhead hmake (hhead path hp hstep.1)
      · split
        · exact .pure trivial
        · exact hleaf
  · exact hleaf
termination_by path.length

/-- What is kept by making a directory at each head of the path is kept by making them all. -/
theorem makeDirectories_keeps_heads {path : Text}
    (hmake : ∀ q, q ≠ [] → q <+: path → pathNames q <+: pathNames path →
      ∀ s, I s → I (s.answer (.makeDirectory q)).2) :
    (makeDirectories path).Keeps I fun _ => True := by
  let P : Text → Prop := fun q => q <+: path ∧ pathNames q <+: pathNames path
  have hhead : ∀ q, P q → (lastStep q).1 ≠ [] → P (lastStep q).1 := fun q hq _ =>
    ⟨(lastStep_fst_isPrefix q).trans hq.1, (pathNames_lastStep_isPrefix q).trans hq.2⟩
  have hmake' : ∀ q, P q → ∀ s, I s → I (s.answer (.makeDirectory q)).2 := by
    intro q hq s hI
    by_cases hnil : q = []
    · rwa [hnil, Host.answer_makeDirectory_nil]
    · exact hmake q hnil hq.1 hq.2 s hI
  exact makeDirectories_keeps hhead hmake' ⟨List.prefix_rfl, List.prefix_rfl⟩

/-- What is kept by making a directory at each head of the path is kept by making those that its file
lies in. -/
theorem makeDirectories_parent_keeps {path : Text}
    (hmake : ∀ q, q ≠ [] → q <+: path → pathNames q <+: pathNames path →
      ∀ s, I s → I (s.answer (.makeDirectory q)).2) :
    (makeDirectories (Path.parent path)).Keeps I fun _ => True :=
  makeDirectories_keeps_heads fun q hne hpre hnames => hmake q hne
    (hpre.trans (FileSystem.split_fst_isPrefix path))
    (hnames.trans (pathNames_split_fst_isPrefix path))

/-- Writing a file keeps what is kept by making the directories of its heads, by emptying it and by
filling what was emptied. It does not end without a place where it was emptied. -/
theorem writeText_keeps {Q : Location → Prop} {path t : Text}
    (hmake : ∀ q, q ≠ [] → q <+: path → pathNames q <+: pathNames path →
      ∀ s, I s → I (s.answer (.makeDirectory q)).2)
    (hcreate : ∀ s, I s → I (s.answer (.create path)).2 ∧
      ∀ p, (s.answer (.create path)).1 = .ok p → Q p)
    (hwrite : ∀ p, Q p → ∀ s, I s → I { s with files := s.files.putFile p (.text t) }) :
    (writeText path t).Keeps I fun _ => ∃ p, Q p :=
  (makeDirectories_parent_keeps hmake).bind fun _ _ =>
    (Action.Keeps.create hcreate).bind fun p hp => (Action.Keeps.write (hwrite p hp)).mono
      fun _ _ => ⟨p, hp⟩

end Keeps

end Rehome.Build
