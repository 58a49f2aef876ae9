import Rehome.Number.Binary64

/-! Values as settings files and request bodies hold them. -/

namespace Rehome

inductive Value where
  | null
  | bool (b : Bool)
  | integer (i : Int)
  | number (x : Binary64)
  /-- A date, a time of day or both. Nothing asks for more than that it is one. -/
  | moment
  | text (t : Text)
  | list (vs : List Value)
  /-- Fields in order, no two of one name. -/
  | record (fields : List (Text × Value))

end Rehome
