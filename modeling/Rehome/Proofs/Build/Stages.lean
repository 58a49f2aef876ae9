import Rehome.Proofs.Build.Confinement

/-! The stages of a build that ends well: what each of them was given, and what it handed on. -/

namespace Rehome.Build

variable {s t u v : Host} {base cwd rel : Text} {p : Package} {c : Settings} {b : Build}

/-- The declaration of the file at `rel` of a package that holds the text `t`. -/
def rehomed (p : Package) (rel t : Text) : Declaration :=
  let d := Declaration.place p.home rel p.rootFile []
  { d with text := Statement.rehome d.currentPath d.modulePath t }

theorem prepare_eq (p : Package) (destination rel : Text) :
    prepare p destination rel = (do
      let t ← Action.read (Path.join p.sourceDir rel)
      writeText (Path.join (Path.join destination p.home) rel) (rehomed p rel t).text
      Action.log .debug ("Rewrote ".toList ++ rel ++ " as ".toList ++ (rehomed p rel t).modulePath)
      return rehomed p rel t) := rfl

/-- A file that is copied was read, and then what its text is rehomed to was written. -/
theorem prepare_stages {d : Declaration} (h : u.perform (prepare p base rel) = (.ok d, v)) :
    ∃ t w, '\x00' ∉ Path.join p.sourceDir rel ∧
      u.files.read u.cwd (Path.join p.sourceDir rel) = .ok (.text t) ∧ d = rehomed p rel t ∧
      u.perform (writeText (Path.join (Path.join base p.home) rel) d.text) = (.ok (), w) ∧
      ∃ l, v = { w with log := l } := by
  rw [prepare_eq] at h
  obtain ⟨t, u', hread, hrest⟩ := Host.perform_bind_ok h
  obtain ⟨rfl, hnul, hread⟩ := Host.perform_read_ok_iff.1 hread
  obtain ⟨⟨⟩, w, hwrite, hlog⟩ := Host.perform_bind_ok hrest
  rw [Host.perform_bind, Host.perform_log] at hlog
  cases hlog
  exact ⟨t, w, hnul, hread, rfl, hwrite, _, rfl⟩

end Rehome.Build
