import Rehome.Text.Blank
import Rehome.Text.Digit

/-! Whole numbers in texts. Arguments allow digits of all scripts; fields of records allow a
fraction of zeros and are lenient about zeros in front. Both allow one underscore between two
digits. -/

namespace Rehome.Number

/-- The most digits that a number may be read from. -/
def maxDigits : Nat := 4300

/-- The values of digits with at most one underscore between two of them. -/
def digits? (value? : Char → Option Nat) : Text → Option (List Nat)
  | [] => none
  | [c] => (value? c).map ([·])
  | c :: '_' :: t => (value? c).bind fun d => (digits? value? t).map (d :: ·)
  | c :: t => (value? c).bind fun d => (digits? value? t).map (d :: ·)

def signed (negative : Bool) (n : Nat) : Int := if negative then -n else n

/-- A sign and what follows it. No sign counts as a plus. -/
def cutSign : Text → Bool × Text
  | '-' :: t => (true, t)
  | '+' :: t => (false, t)
  | t => (false, t)

/-- The number that an argument spells. -/
def ofArgument? (t : Text) : Option Int :=
  let (negative, t) := cutSign t.trim
  (digits? Text.digitValue? t).bind fun ds =>
    if maxDigits < ds.length then none else some (signed negative (Text.numeral 10 ds))

inductive FieldError where
  | unreadable
  | huge
  deriving DecidableEq

def isLeadingDigit (c : Char) : Bool := '1' ≤ c && c ≤ '9'

/-- Zeros and underscores taken off behind `last`, itself one of them, as long as the number goes
on. A point needs a character in front of it, and a text of nothing else keeps its last one. -/
def dropZeros (last : Char) : Text → Option Text
  | [] => some [last]
  | c :: t =>
    if c = '0' ∨ c = '_' then dropZeros c t
    else if isLeadingDigit c ∨ c = '-' then some (c :: t)
    else if c = '.' then some (last :: c :: t)
    else none

def dropLeadingZeros : Text → Option Text
  | [] => none
  | c :: t =>
    if c = '0' then dropZeros c t
    else if isLeadingDigit c then some (c :: t)
    else none

/-- The text without a final fraction of zeros, of which there is at least one. -/
def dropZeroFraction (t : Text) : Text :=
  match t.cutFirst? '.' with
  | some (whole, fraction) => if fraction ≠ [] ∧ fraction.all (· = '0') then whole else t
  | none => t

/-- The text without its underscores, each of which stands alone inside it. -/
def dropUnderscores (t : Text) : Text :=
  let doubled := (t.zip t.tail).any fun p => p.1 = '_' && p.2 = '_'
  if t.head? = some '_' ∨ t.getLast? = some '_' ∨ doubled then t
  else t.filter (· ≠ '_')

/-- A plain decimal numeral without needless zeros, after an optional minus. Too many digits are too
many even where something else follows them. -/
def ofPlain (t : Text) : Except FieldError Int :=
  let (negative, ds) : Bool × Text := match t with
    | '-' :: ds => (true, ds)
    | ds => (false, ds)
  match ds with
  | ['0'] => .ok 0
  | c :: _ =>
    if isLeadingDigit c then
      let run := ds.takeWhile Text.isAsciiDigit
      if maxDigits < run.length then .error .huge
      else if run.length = ds.length then
        .ok (signed negative (Text.numeral 10 (ds.map fun c => c.toNat - '0'.toNat)))
      else .error .unreadable
    else .error .unreadable
  | [] => .error .unreadable

/-- The plain numeral that a field spells with blanks around it, a plus, needless zeros and
underscores. -/
def plain? (t : Text) : Option Text :=
  let (negative, t) := cutSign t.trim
  (dropLeadingZeros t).map fun t =>
    let t := dropUnderscores (dropZeroFraction t)
    if negative then '-' :: t else t

/-- The number that a field spells. Only of a numeral that is plain as it stands it is told that it
is too long. -/
def ofField (t : Text) : Except FieldError Int :=
  match ofPlain t with
  | .error .unreadable =>
    ((plain? t).bind fun t => (ofPlain t).toOption).elim (.error .unreadable) .ok
  | r => r

example : (ofField "0__5".toList).toOption = some 5 := by decide +kernel
example : (ofField " +1_0.00 ".toList).toOption = some 10 := by decide +kernel
example : (ofField "5.".toList).toOption = none := by decide +kernel
example : ofArgument? "-1_000".toList = some (-1000) := by decide +kernel

end Rehome.Number
