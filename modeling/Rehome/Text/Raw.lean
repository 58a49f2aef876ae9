import Rehome.Text.Quoted

/-! Raw texts, in code points of any kind. Half a surrogate pair is a code point and no character, and has no UTF-8
form: a byte of an argument that is not UTF-8 is read as one. -/

namespace Rehome

inductive CodePoint where
  | scalar (c : Char)
  /-- Half of a surrogate pair, by its number among all halves. -/
  | surrogate (i : Fin 0x800)
  deriving DecidableEq

abbrev RawText := List CodePoint

namespace CodePoint

def char? : CodePoint → Option Char
  | scalar c => some c
  | surrogate _ => none

def escape (mark : Char) : CodePoint → Text
  | scalar c => Text.escape mark c
  | surrogate i => '\\' :: 'u' :: Text.hex 4 (0xd800 + i)

end CodePoint

def Text.raw (t : Text) : RawText := t.map .scalar

namespace RawText

/-- The text of the same characters, for a raw text that holds nothing else. -/
def text? (t : RawText) : Option Text := t.mapM CodePoint.char?

def quoted (t : RawText) : Text :=
  let mark := Text.quoteMark (t.filterMap CodePoint.char?)
  mark :: t.flatMap (CodePoint.escape mark) ++ [mark]

example : quoted (.surrogate 0x4ff :: Text.raw "it's".toList) = "\"\\udcffit's\"".toList := by
  decide +kernel

end RawText

end Rehome
