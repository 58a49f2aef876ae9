import Rehome.Text.Quoted

/-! The manifest, a module whose default export maps the key of each copied file to a function that
loads it. -/

namespace Rehome.Manifest

structure Entry where
  key : Text
  loader : Text
  deriving DecidableEq

/-- The entry of the file at `rel` below `home`. The loader asks for the text of the file, not for
the module in it. -/
def entry (home rel : Text) : Entry where
  key := home ++ '/' :: rel
  loader := "import( './".toList ++ home ++ '/' :: rel ++ "?raw' )".toList

def Entry.line (e : Entry) : Text :=
  "  [ '".toList ++ e.key ++ "', ".toList ++ e.loader ++ " ],".toList

/-- One line for each entry, in order, and a line feed after the last line. -/
def render (es : List Entry) : Text :=
  ['\n'].intercalate
    ("export default new Map( [".toList :: es.map Entry.line ++ ["] );".toList, []])

/-- A name that stands for a file of the directory it is looked up in. -/
def isPlainName (name : Text) : Bool :=
  name ≠ [] && '/' ∉ name && '\\' ∉ name && name ≠ ['.'] && name ≠ ['.', '.']

def nameComplaint (name : Text) : Text :=
  "manifest_name must be a plain file name, got ".toList ++ name.quoted

end Rehome.Manifest
