import Rehome.CommandLine.Grammar
import Rehome.Number.Whole

/-! What the command line asks for: one of three commands with its options. -/

namespace Rehome.CommandLine

/-- Options of the command for packages. Empty texts were not given. -/
structure Prepare where
  settingsFile : Text := []
  destination : Text := []
  /-- One for each time that the option was given, even without a value. -/
  packages : List (Option Text) := []
  deriving DecidableEq

/-- Options of the command for a single file. Empty texts were not given. -/
structure Single where
  file : Text := []
  home : Text := []
  relPath : Text := []
  /-- Nothing if the option was given without a value. -/
  rootFile : Option Text := some "index.d.ts".toList
  currentPath : Text := []
  modulePath : Text := []
  deriving DecidableEq

/-- Where to listen. Either part may have been given without a value. -/
structure Address where
  host : Option Text := some "127.0.0.1".toList
  portNumber : Option Int := some 8000
  reload : Bool := false
  deriving DecidableEq

inductive Order where
  | prepare (options : Prepare)
  | single (options : Single)
  | serve (address : Address)
  deriving DecidableEq

def help {σ : Type} : Choice σ :=
  { names := ["-h".toList, "--help".toList], effect := .alone fun _ => .error .help }

/-- An option that may be given without a value. -/
def valueOption {σ : Type} (names : List String) (f : Option Text → σ → σ) : Choice σ :=
  { names := names.map (·.toList), effect := .valued fun v x => .ok (f v x) }

/-- An option that counts as empty without a value. -/
def textOption {σ : Type} (names : List String) (f : Text → σ → σ) : Choice σ :=
  valueOption names fun v => f (v.getD [])

def general : Grammar Bool :=
  [help, { names := ["-v".toList, "--verbose".toList], effect := .alone fun _ => .ok true }]

def Prepare.grammar : Grammar Prepare :=
  [help,
   textOption ["-c", "--config"] fun v o => { o with settingsFile := v },
   textOption ["-d", "--destination"] fun v o => { o with destination := v },
   valueOption ["-p", "--package"] fun v o => { o with packages := o.packages ++ [v] }]

def Single.grammar : Grammar Single :=
  [help,
   textOption ["--namespace"] fun v o => { o with home := v },
   textOption ["--rel-path"] fun v o => { o with relPath := v },
   valueOption ["--root-file"] fun v o => { o with rootFile := v },
   textOption ["--current-path"] fun v o => { o with currentPath := v },
   textOption ["--module-path"] fun v o => { o with modulePath := v }]

/-- A number to listen at, which has to be readable if it is given at all. -/
def Address.setNumber (v : Option Text) (a : Address) : Except Stop Address :=
  match v with
  | none => .ok { a with portNumber := none }
  | some t =>
    match Number.ofArgument? t with
    | some n => .ok { a with portNumber := some n }
    | none => .error .usage

def Address.grammar : Grammar Address :=
  [help,
   valueOption ["--host"] fun v a => { a with host := v },
   { names := ["--port".toList], effect := .valued Address.setNumber },
   { names := ["--reload".toList], effect := .alone fun a => .ok { a with reload := true } }]

/-- The command of that name with the words that follow it. -/
def Order.ofCommand (name : Text) (ws : List Text) : Except Stop Order :=
  match String.ofList name with
  | "prepare" => (Prepare.grammar.parse none {} ws).map .prepare
  | "rewrite" =>
    (Single.grammar.parse (some fun w o => { o with file := w }) {} ws).map .single
  | "serve" => (Address.grammar.parse none {} ws).map .serve
  | _ => .error .usage

/-- Whether every copied file is logged, and what is asked for. The words up to the first operand
are options of no command, and that operand is the command. -/
def parse (ws : List Text) : Except Stop (Bool × Order) := do
  let words ← general.classifyAll ws
  let isOption := fun (w : Text × Word Bool) =>
    match w.2 with
    | .option .. | .unknown => true
    | _ => false
  let r ← general.read { result := false, operand := none } (words.takeWhile isOption)
  match words.dropWhile isOption with
  | (name, .operand) :: ws =>
    let order ← Order.ofCommand name (ws.map (·.1))
    if r.stray then throw .usage else return (r.result, order)
  | _ => throw .usage

end Rehome.CommandLine
