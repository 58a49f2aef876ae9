import Rehome.Toml.Key
import Rehome.Toml.Moment
import Rehome.Toml.Number
import Rehome.Toml.Table

/-! Values and whole documents. -/

namespace Rehome.Toml

/-- Values that hold no other values. -/
def plainValue : Scan Value := fun t =>
  if t.head? = some '"' ∨ t.head? = some '\'' then (string t).map fun (s, r) => (.text s, r)
  else
    match Text.afterPrefix? "true".toList t, Text.afterPrefix? "false".toList t with
    | some r, _ => .ok (.bool true, r)
    | none, some r => .ok (.bool false, r)
    | none, none =>
      match afterMoment? t with
      | some r => r.map fun r => (.moment, r)
      | none => number t

/-- A key and the sign between it and its value. -/
def keyOfPair (t : Text) : Except Error (List Text × Text) := do
  match ← key t with
  | (ks, '=' :: r) => return (ks, skipBlanks r)
  | _ => throw .malformed

mutual

def value (t : Text) : Except Error (Value × Text) :=
  match t with
  | '[' :: r => do
    let ⟨(_, r), _⟩ ← took ('[' :: r) (skipLines false r)
    match r with
    | ']' :: r => return (.list [], r)
    | _ => items [] r
  | '\x7b' :: r => do
    let ⟨(_, r), _⟩ ← took ('\x7b' :: r) (.ok ((), skipBlanks r))
    match r with
    | '\x7d' :: r => return (.record [], r)
    | _ => pairs [] r
  | t => plainValue t
termination_by 2 * t.length
decreasing_by all_goals ((try simp only [List.length_cons] at *); omega)

/-- The rest of an array from an item on, after the items `vs`. -/
def items (vs : List Value) (t : Text) : Except Error (Value × Text) := do
  let ⟨(v, r), _⟩ ← took t (value t)
  match ← skipLines false r with
  | (_, ']' :: r) => return (.list (vs ++ [v]), r)
  | (_, ',' :: r) =>
    let ⟨(_, r), _⟩ ← took t (skipLines false r)
    match r with
    | ']' :: r => return (.list (vs ++ [v]), r)
    | _ => items (vs ++ [v]) r
  | _ => throw .malformed
termination_by 2 * t.length + 1
decreasing_by all_goals ((try simp only at *); omega)

/-- The rest of an inline table from a key on, after the fields `fs`. -/
def pairs (fs : Fields) (t : Text) : Except Error (Value × Text) := do
  let ⟨(ks, r), _⟩ ← took t (keyOfPair t)
  let (v, r) ← value r
  let fs ← fs.atEnd (Fields.enterByDot 0) (Fields.define · v) ks
  match skipBlanks r with
  | '\x7d' :: r => return (.record (fieldValues fs), r)
  | ',' :: r =>
    let ⟨(_, r), _⟩ ← took t (.ok ((), skipBlanks r))
    pairs fs r
  | _ => throw .malformed
termination_by 2 * t.length + 1
decreasing_by all_goals ((try simp only at *); omega)

end

/-- A document that is being read: its tables, the table that the last header named, and how many
headers there were. -/
structure Draft where
  root : Fields := []
  header : List Text := []
  part : Nat := 0

namespace Draft

def define (d : Draft) (path : List Text) (v : Value) : Except Error Draft :=
  (d.root.within Fields.enterByHeader
    (Fields.atEnd (Fields.enterByDot d.part) (Fields.define · v) path) d.header).map
    fun root => { d with root }

def declare (d : Draft) (path : List Text) : Except Error Draft :=
  (d.root.atEnd Fields.enterByHeader Fields.declare path).map
    fun root => { root, header := path, part := d.part + 1 }

def append (d : Draft) (path : List Text) : Except Error Draft :=
  (d.root.atEnd Fields.enterByHeader Fields.append path).map
    fun root => { root, header := path, part := d.part + 1 }

end Draft

/-- What may stand on a line before its comment: a header, a key with its value, or nothing. -/
def statement (d : Draft) (t : Text) : Except Error (Draft × Text) :=
  match t with
  | [] | '\n' :: _ | '#' :: _ => .ok (d, t)
  | '[' :: '[' :: t => do
    match ← key (skipBlanks t) with
    | (path, ']' :: ']' :: r) => return (← d.append path, r)
    | _ => throw .malformed
  | '[' :: t => do
    match ← key (skipBlanks t) with
    | (path, ']' :: r) => return (← d.declare path, r)
    | _ => throw .malformed
  | t => do
    let (path, r) ← keyOfPair t
    let (v, r) ← value r
    return (← d.define path v, r)

/-- The lines of a document. -/
def lines (d : Draft) (t : Text) : Except Error Draft := do
  let (d, r) ← statement d (skipBlanks t)
  match ← skipComment (skipBlanks r) with
  | (_, []) => return d
  | (_, '\n' :: r) =>
    let ⟨(_, r), _⟩ ← took t (.ok ((), r))
    lines d r
  | _ => throw .malformed
termination_by t.length

/-- The table that a document describes. -/
def parse (t : Text) : Except Error Value :=
  (lines {} t.joinLineEnds).map fun d => .record (fieldValues d.root)

end Rehome.Toml
