import Rehome.Number.Whole
import Rehome.Record.Value
import Rehome.Toml.Scan

/-! Numbers. -/

namespace Rehome.Toml

/-- Digits and single underscores between them, after a first digit. -/
def moreDigits (isDigit : Char → Bool) : Text → Text × Text
  | [] => ([], [])
  | '_' :: d :: t =>
    if isDigit d then
      let (ds, r) := moreDigits isDigit t
      (d :: ds, r)
    else ([], '_' :: d :: t)
  | c :: t =>
    if isDigit c then
      let (ds, r) := moreDigits isDigit t
      (c :: ds, r)
    else ([], c :: t)

/-- The digits at the head of a text, of which there is at least one. -/
def digits? (isDigit : Char → Bool) : Text → Option (Text × Text)
  | [] => none
  | c :: t =>
    if isDigit c then
      let (ds, r) := moreDigits isDigit t
      some (c :: ds, r)
    else none

def numeral (base : Nat) (ds : Text) : Nat := Text.numeral base (ds.filterMap Text.hexValue?)

def isBinaryDigit (c : Char) : Bool := c = '0' || c = '1'

def isOctalDigit (c : Char) : Bool := '0' ≤ c && c ≤ '7'

def isHexDigit (c : Char) : Bool := (Text.hexValue? c).isSome

/-- A whole number in another base than ten, which has no sign. -/
def basedNumber? : Text → Option (Value × Text)
  | '0' :: 'x' :: t => (digits? isHexDigit t).map fun (ds, r) => (.integer (numeral 16 ds), r)
  | '0' :: 'o' :: t => (digits? isOctalDigit t).map fun (ds, r) => (.integer (numeral 8 ds), r)
  | '0' :: 'b' :: t => (digits? isBinaryDigit t).map fun (ds, r) => (.integer (numeral 2 ds), r)
  | _ => none

/-- The whole part of a decimal. A zero at its head stands alone. -/
def wholePart? : Text → Option (Text × Text)
  | '0' :: t => some (['0'], t)
  | t => digits? Text.isAsciiDigit t

def fractionPart? : Text → Option (Text × Text)
  | '.' :: t => digits? Text.isAsciiDigit t
  | _ => none

def exponentPart? : Text → Option (Int × Text)
  | c :: t =>
    if c = 'e' ∨ c = 'E' then
      let (negative, t) := Number.cutSign t
      (digits? Text.isAsciiDigit t).map fun (ds, r) => (Number.signed negative (numeral 10 ds), r)
    else none
  | [] => none

/-- A decimal. With a fraction or an exponent it is a floating-point number. -/
def decimal? (t : Text) : Option (Except Error (Value × Text)) :=
  let (negative, t) := Number.cutSign t
  (wholePart? t).map fun (whole, t) =>
    let fraction := fractionPart? t
    let t := (fraction.map (·.2)).getD t
    let exponent := exponentPart? t
    let t := (exponent.map (·.2)).getD t
    if fraction.isSome ∨ exponent.isSome then
      let places := (fraction.map (·.1)).getD []
      let e := (exponent.map (·.1)).getD 0
      .ok (.number (.ofDecimal negative (numeral 10 (whole ++ places)) (e - places.length)), t)
    else if Number.maxDigits < whole.length then .error (.hugeNumeral whole.length)
    else .ok (.integer (Number.signed negative (numeral 10 whole)), t)

/-- Infinities and what is no number. -/
def namedNumber? (t : Text) : Option (Value × Text) :=
  let (_, t) := Number.cutSign t
  ((Text.afterPrefix? "inf".toList t).map fun r => (.number .infinite, r)).or
    ((Text.afterPrefix? "nan".toList t).map fun r => (.number .nan, r))

def number : Scan Value := fun t =>
  match basedNumber? t with
  | some r => .ok r
  | none =>
    match decimal? t with
    | some r => r
    | none =>
      match namedNumber? t with
      | some r => .ok r
      | none => .error .malformed

end Rehome.Toml
