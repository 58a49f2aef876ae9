import Rehome.Text.Basic
import Rehome.Text.Digit

/-! Grammars of command lines. A word is an option, an operand or the separator after which all
words are operands. Options have long names, which may be cut short as long as no other option begins
alike, and short ones, of which several may stand in one word. Words are texts, so those with bytes that are not
UTF-8 are left out. -/

namespace Rehome.CommandLine

/-- Why a command line is not carried out. -/
inductive Stop where
  /-- Help was asked for. -/
  | help
  | usage
  deriving DecidableEq

def Stop.code : Stop → Nat
  | help => 0
  | usage => 2

/-- A change to what has been read so far. -/
abbrev Step (σ : Type) := σ → Except Stop σ

inductive Effect (σ : Type) where
  /-- The option stands alone. -/
  | alone (step : Step σ)
  /-- The option takes a value. -/
  | valued (step : Option Text → Step σ)

structure Choice (σ : Type) where
  names : List Text
  effect : Effect σ

/-- The options that a command knows. -/
abbrev Grammar (σ : Type) := List (Choice σ)

def separator : Text := "--".toList

/-- What a word is. -/
inductive Word (σ : Type) where
  | operand
  | separator
  /-- An option by one of its names, with what is attached to the name. -/
  | option (effect : Effect σ) (short : Bool) (attached : Option Text)
  | unknown

namespace Grammar

variable {σ : Type}

def names (g : Grammar σ) : List (Text × Effect σ) :=
  g.flatMap fun c => c.names.map (·, c.effect)

/-- The option of exactly that name. -/
def find? (g : Grammar σ) (name : Text) : Option (Effect σ) :=
  (g.names.find? (·.1 = name)).map (·.2)

/-- The options whose names begin like that. -/
def findAll (g : Grammar σ) (start : Text) : List (Effect σ) :=
  (g.names.filter fun n => start.isPrefixOf n.1).map (·.2)

end Grammar

def isLong (name : Text) : Bool := separator.isPrefixOf name

/-- A word that looks like a negative number and so is none of the options. A line feed at its end
does not count. -/
def isNegativeNumber (w : Text) : Bool :=
  let isDigit := fun c => (Text.digitValue? c).isSome
  match w.stripSuffix ['\n'] with
  | '-' :: ds =>
    match ds.dropWhile isDigit with
    | [] => ds ≠ []
    | '.' :: ds => ds ≠ [] && ds.all isDigit
    | _ => false
  | _ => false

namespace Grammar

variable {σ : Type}

/-- What a word is that has the look of an option but is the exact name of none. -/
def classifyOther (g : Grammar σ) (w : Text) : Except Stop (Word σ) :=
  let other : Word σ := if isNegativeNumber w ∨ ' ' ∈ w then .operand else .unknown
  if isLong w then
    let (start, attached) := match w.cutFirst? '=' with
      | some (start, v) => (start, some v)
      | none => (w, none)
    match g.findAll start with
    | [] => .ok other
    | [e] => .ok (.option e false attached)
    | _ => .error .usage
  else
    match g.find? (w.take 2) with
    | some e => .ok (.option e true (some (w.drop 2)))
    | none => .ok other

/-- What a word is before any separator. -/
def classify (g : Grammar σ) (w : Text) : Except Stop (Word σ) :=
  if w = CommandLine.separator then .ok .separator
  else if w.head? ≠ some '-' ∨ w.length < 2 then .ok .operand
  else
    match g.find? w with
    | some e => .ok (.option e (!isLong w) none)
    | none =>
      match w.cutFirst? '=' with
      | some (name, v) =>
        match g.find? name with
        | some e => .ok (.option e (!isLong w) (some v))
        | none => g.classifyOther w
      | none => g.classifyOther w

/-- All words are looked at before the first of them is acted upon. -/
def classifyAll (g : Grammar σ) : List Text → Except Stop (List (Text × Word σ))
  | [] => .ok []
  | w :: ws => do
    match ← g.classify w with
    | .separator => return (w, .separator) :: ws.map (·, .operand)
    | x => return (w, x) :: (← g.classifyAll ws)

/-- The steps that the options of one word ask for, and the option that still waits for a value.
Behind a short option that takes none other short options may follow. A separator that is attached
as a value is no value. -/
def steps (g : Grammar σ) (e : Effect σ) (short : Bool) (attached : Option Text) :
    Except Stop (List (Step σ) × Option (Option Text → Step σ)) :=
  match e, attached with
  | .alone step, none => .ok ([step], none)
  | .valued step, none => .ok ([], some step)
  | .valued step, some v => .ok ([step (if v = CommandLine.separator then none else some v)], none)
  | .alone step, some (c :: v) =>
    match short, g.find? ['-', c] with
    | true, some e =>
      (g.steps e true (if v = [] then none else some v)).map fun (ss, w) => (step :: ss, w)
    | _, _ => .error .usage
  | .alone _, some [] => .error .usage
termination_by (attached.getD []).length
decreasing_by split <;> simp_all

/-- How far a command line has been read. -/
structure Reading (σ : Type) where
  result : σ
  /-- What is done with the operand that is still wanted. -/
  operand : Option (Text → σ → σ)
  /-- The word before was the operand. -/
  afterOperand : Bool := false
  /-- There was a word that nothing wanted. -/
  stray : Bool := false

def Reading.apply (r : Reading σ) (ss : List (Step σ)) : Except Stop (Reading σ) :=
  (ss.foldlM (fun x (step : Step σ) => step x) r.result).map fun result =>
    { r with result, afterOperand := false }

/-- The words from left to right. Words that nothing wants are only noted, so that help can still be
asked for behind them. A separator belongs to the operand before or behind it. -/
def read (g : Grammar σ) (r : Reading σ) : List (Text × Word σ) → Except Stop (Reading σ)
  | [] => .ok r
  | (_, .unknown) :: ws => g.read { r with afterOperand := false, stray := true } ws
  | (_, .separator) :: ws =>
    let wanted := r.afterOperand || (r.operand.isSome && !ws.isEmpty)
    g.read { r with afterOperand := false, stray := r.stray || !wanted } ws
  | (w, .operand) :: ws =>
    match r.operand with
    | some f => g.read { r with result := f w r.result, operand := none, afterOperand := true } ws
    | none => g.read { r with afterOperand := false, stray := true } ws
  | (_, .option e short attached) :: ws => do
    match ← g.steps e short attached with
    | (ss, none) => g.read (← r.apply ss) ws
    | (ss, some step) =>
      match ws with
      | (v, .operand) :: ws => g.read (← r.apply (ss ++ [step (some v)])) ws
      | _ => throw .usage

/-- What all the words make of `start`. An operand that is wanted has to come. -/
def parse (g : Grammar σ) (operand : Option (Text → σ → σ)) (start : σ) (ws : List Text) :
    Except Stop σ := do
  let r ← g.read { result := start, operand } (← g.classifyAll ws)
  if r.stray ∨ r.operand.isSome then throw .usage else return r.result

end Grammar

end Rehome.CommandLine
