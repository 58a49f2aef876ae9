import Rehome.Text.Blank

/-! Statements that name a module. A statement is found at the head of a text by its pattern alone:
one keyword, bindings on one line, and the module between two equal quotes. Every part takes as much
of its line as it can. -/

namespace Rehome.Statement

/-- The shapes that a statement may have. -/
inductive Shape where
  /-- `import … from '…'` -/
  | importFrom
  /-- `import '…'` -/
  | importBare
  /-- `export … from '…'` -/
  | exportFrom
  deriving DecidableEq

/-- A statement at the head of a text, and what follows it. -/
structure Found where
  /-- From the keyword up to the opening quote. -/
  lead : Text
  module : Text
  quote : Char
  rest : Text
  deriving DecidableEq

namespace Found

/-- The text that the statement was found in. -/
def source (f : Found) : Text := f.lead ++ f.module ++ f.quote :: f.rest

def addLead (u : Text) (f : Found) : Found := { f with lead := u ++ f.lead }

@[simp] theorem source_addLead (u : Text) (f : Found) : (f.addLead u).source = u ++ f.source := by
  simp [source, addLead]

theorem length_rest_lt (f : Found) : f.rest.length < f.source.length := by
  simp [source]; omega

end Found

/-- The longest beginning on one line, of at least one character, after which `next` accepts. -/
def longest? {α : Type} (next : Text → Option α) : Text → Option (Text × α)
  | [] => none
  | c :: t =>
    if c = '\n' then none
    else
      match longest? next t with
      | some (u, a) => some (c :: u, a)
      | none => (next t).map fun a => ([c], a)

def closing? (q : Char) : Text → Option Text
  | [] => none
  | c :: t => if c = q then some t else none

/-- A module between quotes, up to the last quote of its kind on the line. -/
def quotedModule? : Text → Option Found
  | [] => none
  | q :: t =>
    if q = '\'' ∨ q = '"' then (longest? (closing? q) t).map fun (m, r) => ⟨[q], m, q, r⟩ else none

def blankThen? (next : Text → Option Found) : Text → Option Found
  | [] => none
  | c :: t => if Text.isBlank c then (next t).map (·.addLead [c]) else none

def wordThen? (w : Text) (next : Text → Option Found) (t : Text) : Option Found :=
  (Text.afterPrefix? w t).bind fun r => (next r).map (·.addLead w)

def bindingsThen? (next : Text → Option Found) (t : Text) : Option Found :=
  (longest? next t).map fun (u, f) => f.addLead u

def fromClause? : Text → Option Found :=
  blankThen? (wordThen? "from".toList (blankThen? quotedModule?))

/-- The statement of the given shape at the head of a text. -/
def Shape.find? : Shape → Text → Option Found
  | .importFrom => wordThen? "import".toList (blankThen? (bindingsThen? fromClause?))
  | .importBare => wordThen? "import".toList (blankThen? quotedModule?)
  | .exportFrom => wordThen? "export".toList (blankThen? (bindingsThen? fromClause?))

/-- What is found is what was there. -/
def Faithful (find : Text → Option Found) : Prop := ∀ ⦃t f⦄, find t = some f → t = f.source

theorem eq_append_of_longest? {α : Type} {next : Text → Option α} {t u : Text} {a : α}
    (h : longest? next t = some (u, a)) : ∃ r, t = u ++ r ∧ next r = some a := by
  induction t generalizing u with
  | nil => simp [longest?] at h
  | cons c t ih =>
    rw [longest?] at h
    split at h
    · cases h
    · split at h
      · next u' a' h' =>
        obtain ⟨rfl, rfl⟩ := by simpa using h
        obtain ⟨r, rfl, hr⟩ := ih h'
        exact ⟨r, rfl, hr⟩
      · obtain ⟨a', ha, h⟩ := Option.map_eq_some_iff.1 h
        obtain ⟨rfl, rfl⟩ := by simpa using h
        exact ⟨t, rfl, ha⟩

theorem eq_cons_of_closing? {q : Char} {t r : Text} (h : closing? q t = some r) : t = q :: r := by
  cases t with
  | nil => simp [closing?] at h
  | cons c t =>
    rw [closing?] at h
    split at h <;> simp_all

namespace Faithful

theorem quotedModule : Faithful quotedModule? := by
  intro t f h
  cases t with
  | nil => simp [quotedModule?] at h
  | cons q t =>
    rw [quotedModule?] at h
    split at h
    · obtain ⟨⟨m, r⟩, hm, rfl⟩ := Option.map_eq_some_iff.1 h
      obtain ⟨s, rfl, hs⟩ := eq_append_of_longest? hm
      simp [Found.source, eq_cons_of_closing? hs]
    · cases h

variable {next : Text → Option Found}

theorem blankThen (hn : Faithful next) : Faithful (blankThen? next) := by
  intro t f h
  cases t with
  | nil => simp [blankThen?] at h
  | cons c t =>
    rw [blankThen?] at h
    split at h
    · obtain ⟨g, hg, rfl⟩ := Option.map_eq_some_iff.1 h
      simp [← hn hg]
    · cases h

theorem wordThen (w : Text) (hn : Faithful next) : Faithful (wordThen? w next) := by
  intro t f h
  obtain ⟨r, hr, h⟩ := Option.bind_eq_some_iff.1 h
  obtain ⟨g, hg, rfl⟩ := Option.map_eq_some_iff.1 h
  simp [← hn hg, Text.eq_append_of_afterPrefix? hr]

theorem bindingsThen (hn : Faithful next) : Faithful (bindingsThen? next) := by
  intro t f h
  obtain ⟨⟨u, g⟩, hu, rfl⟩ := Option.map_eq_some_iff.1 h
  obtain ⟨r, rfl, hr⟩ := eq_append_of_longest? hu
  simp [← hn hr]

theorem fromClause : Faithful fromClause? := .blankThen (.wordThen _ (.blankThen .quotedModule))

theorem find (s : Shape) : Faithful s.find? := by
  cases s with
  | importBare => exact .wordThen _ (.blankThen .quotedModule)
  | _ => exact .wordThen _ (.blankThen (.bindingsThen .fromClause))

end Faithful

end Rehome.Statement
