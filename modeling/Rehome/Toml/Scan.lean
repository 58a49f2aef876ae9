import Rehome.Text.Digit

/-! Scanners, which take something off the head of a document, and what may stand between its parts:
blanks, comments and line feeds. -/

namespace Rehome.Toml

/-- Why a document is refused. -/
inductive Error where
  | malformed
  /-- A decimal integer of more digits than may be read. -/
  | hugeNumeral (digits : Nat)
  deriving DecidableEq

/-- What a scanner makes of the head of a text, and the text that is left. -/
abbrev Scan (α : Type) := Text → Except Error (α × Text)

variable {α : Type}

/-- The answer of a scanner together with the proof that less than `t` is left. One that leaves more
is refused. -/
def took (t : Text) (r : Except Error (α × Text)) :
    Except Error { r : α × Text // r.2.length < t.length } :=
  match r with
  | .ok r => if h : r.2.length < t.length then .ok ⟨r, h⟩ else .error .malformed
  | .error e => .error e

def isBlank (c : Char) : Bool := c = ' ' || c = '\t'

/-- A control character other than the tab. No comment and no string on one line may hold one. -/
def isControl (c : Char) : Bool := (c.toNat < 0x20 && c ≠ '\t') || c.toNat = 0x7f

def skipBlanks (t : Text) : Text := t.dropWhile isBlank

/-- A comment, if one stands here, up to the end of its line. -/
def skipComment : Scan Unit
  | '#' :: t =>
    if (t.takeWhile (· ≠ '\n')).any isControl then .error .malformed
    else .ok ((), t.dropWhile (· ≠ '\n'))
  | t => .ok ((), t)

/-- All blanks, line feeds and comments up to the next thing that is none of them. -/
def skipLines (inComment : Bool) : Scan Unit
  | [] => .ok ((), [])
  | c :: t =>
    if c = '\n' then skipLines false t
    else if inComment then if isControl c then .error .malformed else skipLines true t
    else if isBlank c then skipLines false t
    else if c = '#' then skipLines true t
    else .ok ((), c :: t)

end Rehome.Toml
