import Rehome.Proofs.Build.Stages
import Rehome.Proofs.Declaration.Names
import Rehome.Proofs.Statement.Returns

/-! Packages that were checked out with either kind of line end. A build keeps the line ends of a file, and it finds
the same statements there, unless one of them needs a line end for a blank. -/

namespace Rehome

theorem Text.stripSuffix_isPrefix (p s : Text) : p.stripSuffix s <+: p := by
  rw [stripSuffix]
  split
  · exact List.take_prefix _ _
  · exact List.prefix_refl p

/-- The name of a module is made of characters of the path that its references are resolved against. -/
theorem Declaration.mem_modulePathOf {home rel rootFile : Text} {c : Char} (h : c ∈ modulePathOf home rel rootFile) :
    c ∈ currentPathOf home rel := by
  rw [modulePathOf] at h
  split at h
  · exact List.mem_append_left _ h
  · exact (Text.stripSuffix_isPrefix _ _).subset h

theorem Statement.joinLineEnds_declareModule {name u : Text} (hname : '\r' ∉ name) (hu : '\r' ∉ u) :
    (declareModule name u.crlf).joinLineEnds = declareModule name u := by
  have hhead : '\r' ∉ "declare module '".toList ++ name ++ "' \x7b\n".toList := by
    rw [List.mem_append, List.mem_append, not_or, not_or]
    exact ⟨⟨by decide, hname⟩, by decide⟩
  exact Text.joinLineEnds_crlf_between hhead hu (by decide)

namespace Build

/-- Where no opening needs a line end for its blank, carriage returns in front of the line feeds stay where they are
and change nothing else, in the text of the statements and in the file that a build makes of it. -/
theorem rehomed_crlf {current t : Text} (hn : '\n' ∉ current) (hr : '\r' ∉ current) (ht : '\r' ∉ t)
    (h : Statement.Unbroken t) :
    Statement.resolveAll current t.crlf = (Statement.resolveAll current t).crlf ∧
      ∀ (p : Package) (rel : Text), Declaration.currentPathOf p.home rel = current →
        ∃ u, rehomed p rel t.crlf = { rehomed p rel t with text := u } ∧ u.joinLineEnds = (rehomed p rel t).text := by
  obtain ⟨hcrlf, hreturn⟩ := Statement.resolveAll_crlf hn hr ht h
  refine ⟨hcrlf, fun p rel hcurrent => ⟨(rehomed p rel t.crlf).text, rfl, ?_⟩⟩
  have hname : '\r' ∉ Declaration.modulePathOf p.home rel p.rootFile := fun hc =>
    hr (hcurrent ▸ Declaration.mem_modulePathOf hc)
  have htext (u : Text) : (rehomed p rel u).text =
      Statement.declareModule (Declaration.modulePathOf p.home rel p.rootFile) (Statement.resolveAll current u) := by
    rw [← hcurrent]
    rfl
  rw [htext, htext, hcrlf, Statement.joinLineEnds_declareModule hname hreturn]

/-- A line end may be the blank in front of `from`, where the carriage return goes to the bindings. -/
theorem rehomed_crlf_bindings :
    let p : Package := { home := "ns".toList, sourceDir := "src".toList }
    let t : Text := "import * as b\nfrom './b';\n\nexport * from 'c';\n".toList
    Statement.resolveAll "ns/a".toList t.crlf =
        "import * as b\r\nfrom 'ns/b';\r\n\r\nexport * from 'c';\r\n".toList ∧
      ∃ u, rehomed p "a.d.ts".toList t.crlf = { rehomed p "a.d.ts".toList t with text := u } ∧
        u.joinLineEnds =
          "declare module 'ns/a' \x7b\nimport * as b\nfrom 'ns/b';\n\nexport * from 'c';\n\n\x7d".toList := by
  intro p t
  have hkeyword (s : Statement.Shape) :
      ∀ l ∈ t.tails, s.keyword <+: l → (l.drop 6).head? ≠ some '\n' ∧ (l.drop 7).head? ≠ some '\n' := by
    cases s <;> decide
  have hfrom : ∀ l ∈ t.tails, "from".toList <+: l → (l.drop 4).head? ≠ some '\n' := by decide
  have htail {w l : Text} (h : t = w ++ l) : l ∈ t.tails := (List.mem_tails l t).2 ⟨w, h.symm⟩
  have hunbroken : Statement.Unbroken t := by
    refine ⟨fun a b hab => ⟨fun s hs => ?_, fun c q _ _ _ hs => ?_⟩, fun a b hab s c d q _ _ _ _ hs => ?_⟩
    · obtain ⟨w, rfl⟩ := hs
      have hend := (hkeyword s _ (htail (hab.trans (List.append_assoc _ _ _))) (List.prefix_append _ _)).1
      exact hend (by rw [List.drop_left' s.length_keyword]; rfl)
    · obtain ⟨w, rfl⟩ := hs
      have hend := hfrom ("from".toList ++ '\n' :: b) (htail (w := w ++ [c]) (by rw [hab]; simp))
        (List.prefix_append _ _)
      exact hend rfl
    · obtain ⟨w, rfl⟩ := hs
      have hend := (hkeyword s (s.keyword ++ c :: '\n' :: b) (htail (w := w) (by rw [hab]; simp))
        (List.prefix_append _ _)).2
      exact hend (by rw [List.append_cons, List.drop_left' (by simp [s.length_keyword])]; rfl)
  have hnewline : '\n' ∉ "ns/a".toList := by decide
  have hreturn : '\r' ∉ "ns/a".toList := by decide
  obtain ⟨hcrlf, hbuild⟩ := rehomed_crlf hnewline hreturn (show '\r' ∉ t by decide) hunbroken
  obtain ⟨u, hu, hjoined⟩ := hbuild p "a.d.ts".toList (by decide)
  exact ⟨hcrlf.trans (by decide +kernel), u, hu, hjoined.trans (by decide +kernel)⟩

/-- A carriage return in front of a line feed is a blank of its own, so a bare import that goes on over the end of its
line is found with the one kind of line end and not with the other. -/
theorem resolveAll_parts_on_lineEnds :
    let t : Text := "import\n'./y'".toList
    Statement.resolveAll "ns/a".toList t.crlf ≠ (Statement.resolveAll "ns/a".toList t).crlf := by
  decide +kernel

end Build

end Rehome
