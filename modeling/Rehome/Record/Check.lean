import Rehome.Number.Whole
import Rehome.Package
import Rehome.Record.Issue
import Rehome.Record.Value

/-! Checks that read values of the expected kind out of records. Each check names every issue, in
the order of the fields. -/

namespace Rehome

namespace Value

def field? (name : Text) (fields : List (Text × Value)) : Option Value :=
  (fields.find? (·.1 = name)).map (·.2)

def asText : Value → Checked Text
  | text t => .ok t
  | _ => .fail .notText

def asNonemptyText : Value → Checked Text
  | text [] => .fail .emptyText
  | v => v.asText

/-- Null stands for no text. -/
def asOptionalText : Value → Checked (Option Text)
  | null => .ok none
  | v => v.asText.map some

/-- Integral floating-point numbers are read below this size. -/
def numberLimit : Nat := Nat.pow 2 63

def asInteger : Value → Checked Int
  | bool b => .ok (if b then 1 else 0)
  | integer i => .ok i
  | number .infinite | number .nan => .fail .notFinite
  | number x =>
    match x.integer? with
    | none => .fail .fractional
    | some i => if i.natAbs < numberLimit then .ok i else .fail .hugeInteger
  | text t =>
    match Number.ofField t with
    | .ok i => .ok i
    | .error .unreadable => .fail .unreadableInteger
    | .error .huge => .fail .hugeInteger
  | _ => .fail .notInteger

def asPositive (v : Value) : Checked Int :=
  v.asInteger.bind fun i => if i < 1 then Checked.fail .belowOne else .ok i

def asManifestName (v : Value) : Checked Text :=
  v.asText.bind fun t =>
    if Manifest.isPlainName t then .ok t else Checked.fail (.badManifestName t)

/-- The items from position `i` on. -/
def asItems {α : Type} (check : Value → Checked α) : Nat → List Value → Checked (List α)
  | _, [] => .ok []
  | i, v :: vs =>
    (((check v).within (.index i)).both (asItems check (i + 1) vs)).map fun (a, as) => a :: as

def asList {α : Type} (check : Value → Checked α) : Value → Checked (List α)
  | list vs => asItems check 0 vs
  | _ => .fail .notList

/-- The fields of a record of the named kind. -/
def asRecord {α : Type} (name : String) (check : List (Text × Value) → Checked α) :
    Value → Checked α
  | record fs => check fs
  | _ => .fail (.notRecord name.toList)

/-- A field that has to be there. -/
def required {α : Type} (fields : List (Text × Value)) (name : String)
    (check : Value → Checked α) : Checked α :=
  match field? name.toList fields with
  | some v => (check v).within (.field name.toList)
  | none => (Checked.fail .missing).within (.field name.toList)

/-- A field with a default, which stands for an absent field only. -/
def optional {α : Type} (fields : List (Text × Value)) (name : String) (default : α)
    (check : Value → Checked α) : Checked α :=
  match field? name.toList fields with
  | some v => (check v).within (.field name.toList)
  | none => .ok default

end Value

def Package.ofValue : Value → Checked Package :=
  Value.asRecord "PackageEntry" fun fs =>
    ((Value.required fs "namespace" Value.asText).both
      ((Value.required fs "src_dir" Value.asText).both
        (Value.optional fs "root_file" "index.d.ts".toList Value.asNonemptyText))).map
      fun (home, sourceDir, rootFile) => { home, sourceDir, rootFile }

def Manifest.Entry.ofValue : Value → Checked Manifest.Entry :=
  Value.asRecord "ManifestEntry" fun fs =>
    ((Value.required fs "key" Value.asText).both (Value.required fs "loader" Value.asText)).map
      fun (key, loader) => { key, loader }

end Rehome
