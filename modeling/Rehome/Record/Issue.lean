import Rehome.Manifest

/-! What is wrong with a value that should have been a record of a known kind, and where. -/

namespace Rehome

/-- One step into a value. -/
inductive Step where
  | field (name : Text)
  | index (i : Nat)
  deriving DecidableEq

namespace Issue

inductive Cause where
  | missing
  | notText
  /-- A string with half a surrogate pair in it. -/
  | notUnicode
  | emptyText
  | notList
  /-- Not a record, where a settings record of the given name belongs. -/
  | notRecord (name : Text)
  /-- Not a record, where a request wants one. -/
  | noFields
  | notInteger
  | unreadableInteger
  | hugeInteger
  | fractional
  | notFinite
  | belowOne
  | badManifestName (name : Text)
  deriving DecidableEq

/-- The short name of a cause. -/
def Cause.code : Cause → Text
  | missing => "missing".toList
  | notText => "string_type".toList
  | notUnicode => "string_unicode".toList
  | emptyText => "string_too_short".toList
  | notList => "list_type".toList
  | notRecord _ => "model_type".toList
  | noFields => "model_attributes_type".toList
  | notInteger => "int_type".toList
  | unreadableInteger => "int_parsing".toList
  | hugeInteger => "int_parsing_size".toList
  | fractional => "int_from_float".toList
  | notFinite => "finite_number".toList
  | belowOne => "greater_than_equal".toList
  | badManifestName _ => "value_error".toList

def Cause.message : Cause → Text
  | missing => "Field required".toList
  | notText => "Input should be a valid string".toList
  | notUnicode =>
    "Input should be a valid string, unable to parse raw data as a unicode string".toList
  | emptyText => "String should have at least 1 character".toList
  | notList => "Input should be a valid list".toList
  | notRecord name => "Input should be a valid dictionary or instance of ".toList ++ name
  | noFields => "Input should be a valid dictionary or object to extract fields from".toList
  | notInteger => "Input should be a valid integer".toList
  | unreadableInteger =>
    "Input should be a valid integer, unable to parse string as an integer".toList
  | hugeInteger => "Unable to parse input string as an integer, exceeded maximum size".toList
  | fractional =>
    "Input should be a valid integer, got a number with a fractional part".toList
  | notFinite => "Input should be a finite number".toList
  | belowOne => "Input should be greater than or equal to 1".toList
  | badManifestName name => "Value error, ".toList ++ Manifest.nameComplaint name

end Issue

structure Issue where
  /-- From the whole value inwards. -/
  place : List Step
  cause : Issue.Cause
  deriving DecidableEq

/-- A value that passed, or all that is wrong with it. -/
abbrev Checked (α : Type) := Except (List Issue) α

namespace Checked

variable {α β : Type}

def fail (c : Issue.Cause) : Checked α := .error [⟨[], c⟩]

/-- Both parts are looked at, and the issues of the first come first. -/
def both : Checked α → Checked β → Checked (α × β)
  | .ok a, .ok b => .ok (a, b)
  | .ok _, .error is => .error is
  | .error is, .ok _ => .error is
  | .error is, .error js => .error (is ++ js)

def within (s : Step) (c : Checked α) : Checked α :=
  c.mapError (·.map fun i => { i with place := s :: i.place })

end Checked

end Rehome
