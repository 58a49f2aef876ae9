import Rehome.Record.Value
import Rehome.Toml.Scan

/-! Tables of a document that is still being read. A table remembers how it came to be, for that
decides what may still be added to it. -/

namespace Rehome.Toml

/-- How a table came to be. -/
inductive Origin where
  /-- It lies on the way to a declared table and may still be declared. -/
  | implied
  /-- It lies on the way of a dotted key of the given part of the document, and dotted keys of the
  same part may add to it. -/
  | dotted (part : Nat)
  | declared
  deriving DecidableEq

inductive Node where
  /-- A complete value. Nothing can be added to it. -/
  | closed (v : Value)
  | table (origin : Origin) (fields : List (Text × Node))
  /-- An array of tables. The last one is open and the earlier ones are complete. -/
  | tables (earlier : List Value) (last : List (Text × Node))

abbrev Fields := List (Text × Node)

mutual

def Node.value : Node → Value
  | .closed v => v
  | .table _ fs => .record (fieldValues fs)
  | .tables earlier fs => .list (earlier ++ [.record (fieldValues fs)])

def fieldValues : List (Text × Node) → List (Text × Value)
  | [] => []
  | (k, n) :: fs => (k, n.value) :: fieldValues fs

end

namespace Fields

def find? (fs : Fields) (k : Text) : Option Node := (List.find? (·.1 = k) fs).map (·.2)

def put (fs : Fields) (k : Text) (n : Node) : Fields :=
  match fs with
  | [] => [(k, n)]
  | (l, m) :: fs => if l = k then (k, n) :: fs else (l, m) :: put fs k n

/-- The way into a table: its fields, and the table with other fields. -/
abbrev Entrance := Except Error (Fields × (Fields → Node))

/-- Headers go through all that can hold tables and through what is not there yet. -/
def enterByHeader : Option Node → Entrance
  | none => .ok ([], .table .implied)
  | some (.table origin fs) => .ok (fs, .table origin)
  | some (.tables earlier fs) => .ok (fs, .tables earlier)
  | some (.closed _) => .error .malformed

/-- Dotted keys go through tables that no other part of the document has declared. -/
def enterByDot (part : Nat) : Option Node → Entrance
  | none => .ok ([], .table (.dotted part))
  | some (.table .implied fs) => .ok (fs, .table (.dotted part))
  | some (.table (.dotted p) fs) =>
    if p = part then .ok (fs, .table (.dotted part)) else .error .malformed
  | _ => .error .malformed

/-- `f` done to the table at the end of a path. -/
def within (enter : Option Node → Entrance) (f : Fields → Except Error Fields) :
    List Text → Fields → Except Error Fields
  | [], fs => f fs
  | k :: ks, fs => do
    let (inner, wrap) ← enter (fs.find? k)
    let inner ← within enter f ks inner
    return fs.put k (wrap inner)

/-- A field that was not there. -/
def define (k : Text) (v : Value) (fs : Fields) : Except Error Fields :=
  match fs.find? k with
  | none => .ok (fs.put k (.closed v))
  | some _ => .error .malformed

/-- A table under its own header. -/
def declare (k : Text) (fs : Fields) : Except Error Fields :=
  match fs.find? k with
  | none => .ok (fs.put k (.table .declared []))
  | some (.table .implied inner) => .ok (fs.put k (.table .declared inner))
  | _ => .error .malformed

/-- One more table of an array. -/
def append (k : Text) (fs : Fields) : Except Error Fields :=
  match fs.find? k with
  | none => .ok (fs.put k (.tables [] []))
  | some (.tables earlier last) =>
    .ok (fs.put k (.tables (earlier ++ [.record (fieldValues last)]) []))
  | _ => .error .malformed

/-- `f`, which takes the last name of a path, done to the table that the rest of the path leads
to. -/
def atEnd (enter : Option Node → Entrance) (f : Text → Fields → Except Error Fields)
    (path : List Text) (fs : Fields) : Except Error Fields :=
  match path.getLast? with
  | some k => fs.within enter (f k) path.dropLast
  | none => .error .malformed

end Fields

end Rehome.Toml
