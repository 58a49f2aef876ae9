import Rehome.Toml.Scan

/-! Dates and times of day. -/

namespace Rehome.Toml

/-- Two digits that spell a number from `low` to `high`. -/
def pair? (low high : Nat) : Text → Option (Nat × Text)
  | c :: d :: t =>
    if Text.isAsciiDigit c ∧ Text.isAsciiDigit d then
      let n := (c.toNat - '0'.toNat) * 10 + (d.toNat - '0'.toNat)
      if low ≤ n ∧ n ≤ high then some (n, t) else none
    else none
  | _ => none

def mark? (c : Char) : Text → Option Text
  | d :: t => if d = c then some t else none
  | [] => none

/-- What follows a fraction of a second. -/
def afterFraction : Text → Text
  | '.' :: c :: t => if Text.isAsciiDigit c then t.dropWhile Text.isAsciiDigit else '.' :: c :: t
  | t => t

/-- What follows a time of day. -/
def afterTime? (t : Text) : Option Text := do
  let (_, t) ← pair? 0 23 t
  let t ← mark? ':' t
  let (_, t) ← pair? 0 59 t
  let t ← mark? ':' t
  let (_, t) ← pair? 0 59 t
  return afterFraction t

def afterHours? (t : Text) : Option Text := do
  let (_, t) ← pair? 0 23 t
  let t ← mark? ':' t
  let (_, t) ← pair? 0 59 t
  return t

/-- What follows the distance from universal time, which need not be given. -/
def afterOffset : Text → Text
  | [] => []
  | c :: t =>
    if c = 'Z' ∨ c = 'z' then t
    else if c = '+' ∨ c = '-' then (afterHours? t).getD (c :: t)
    else c :: t

def isLeapYear (y : Nat) : Bool := y % 4 = 0 && (y % 100 ≠ 0 || y % 400 = 0)

def daysIn (year month : Nat) : Nat :=
  if month = 2 then if isLeapYear year then 29 else 28
  else if month = 4 ∨ month = 6 ∨ month = 9 ∨ month = 11 then 30
  else 31

/-- A day in the form of a date: year, month and day. -/
def date? (t : Text) : Option ((Nat × Nat × Nat) × Text) := do
  let (c, t) ← pair? 0 99 t
  let (y, t) ← pair? 0 99 t
  let t ← mark? '-' t
  let (m, t) ← pair? 1 12 t
  let t ← mark? '-' t
  let (d, t) ← pair? 1 31 t
  return ((c * 100 + y, m, d), t)

/-- What follows a date: a time of day and its offset, if they are given. -/
def afterDate : Text → Text
  | [] => []
  | c :: t =>
    if c = 'T' ∨ c = 't' ∨ c = ' ' then
      match afterTime? t with
      | some r => afterOffset r
      | none => c :: t
    else c :: t

/-- What follows a moment, where the text has the form of one. Days that no calendar has are
refused, and so is the year zero. -/
def afterMoment? (t : Text) : Option (Except Error Text) :=
  match date? t with
  | some ((y, m, d), r) =>
    if 1 ≤ y ∧ d ≤ daysIn y m then some (.ok (afterDate r)) else some (.error .malformed)
  | none => (afterTime? t).map .ok

end Rehome.Toml
