import Rehome.Text.Digit
import Rehome.Text.Printable

/-! Quoted literals, the form in which error messages show a text. A literal is printable throughout
and says where it starts and ends. -/

namespace Rehome.Text

/-- Lower-case hexadecimal digits of `n`, with leading zeros up to `width`. -/
def hex (width n : Nat) : Text :=
  let ds := Nat.toDigits 16 n
  List.replicate (width - ds.length) '0' ++ ds

/-- The double quote is used only where it saves an escape. -/
def quoteMark (t : Text) : Char := if '\'' ∈ t ∧ '"' ∉ t then '"' else '\''

def escape (mark c : Char) : Text :=
  if c = mark ∨ c = '\\' then ['\\', c]
  else if c = '\n' then ['\\', 'n']
  else if c = '\r' then ['\\', 'r']
  else if c = '\t' then ['\\', 't']
  else if isPrintable c then [c]
  else if c.toNat ≤ 0xff then '\\' :: 'x' :: hex 2 c.toNat
  else if c.toNat ≤ 0xffff then '\\' :: 'u' :: hex 4 c.toNat
  else '\\' :: 'U' :: hex 8 c.toNat

def quoted (t : Text) : Text :=
  let mark := quoteMark t
  mark :: t.flatMap (escape mark) ++ [mark]

example : quoted "it's".toList = "\"it's\"".toList := by decide +kernel
example : quoted "a\\b\x00".toList = "'a\\\\b\\x00'".toList := by decide +kernel

end Rehome.Text
