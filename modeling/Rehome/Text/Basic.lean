/-! Text as lists of characters. Cutting, joining and replacing are then list operations, and what
they keep is a fact about lists. -/

namespace List

variable {α : Type} [DecidableEq α]

/-- Cut at the first `c`, which belongs to neither part. -/
def cutFirst? (c : α) : List α → Option (List α × List α)
  | [] => none
  | d :: t => if d = c then some ([], t) else (cutFirst? c t).map fun (u, v) => (d :: u, v)

/-- Cut at the last `c`, which belongs to neither part. -/
def cutLast? (c : α) : List α → Option (List α × List α)
  | [] => none
  | d :: t =>
    match cutLast? c t with
    | some (u, v) => some (d :: u, v)
    | none => if d = c then some ([], t) else none

end List

namespace Rehome

/-- Characters are the scalar values of Unicode, so that every text has a UTF-8 form. What is said
here of every text does not speak of strings with half a surrogate pair in them. -/
abbrev Text := List Char

namespace Text

/-- What follows `s` in a text that starts with it. -/
def afterPrefix? : Text → Text → Option Text
  | [], t => some t
  | _ :: _, [] => none
  | c :: s, d :: t => if c = d then afterPrefix? s t else none

def endsWith (t s : Text) : Bool := s.isSuffixOf t

/-- `t` without a final `s`; a text that does not end in `s` stays. -/
def stripSuffix (t s : Text) : Text :=
  if t.endsWith s then t.take (t.length - s.length) else t

/-- Backslashes read as slashes. -/
def slashed (t : Text) : Text := t.map fun c => if c = '\\' then '/' else c

/-- A carriage return with or without a line feed after it becomes one line feed. -/
def unixLines : Text → Text
  | [] => []
  | '\r' :: '\n' :: t => '\n' :: unixLines t
  | c :: t => (if c = '\r' then '\n' else c) :: unixLines t

/-- A carriage return with a line feed after it becomes one line feed; a lone one stays. -/
def joinLineEnds : Text → Text
  | [] => []
  | '\r' :: '\n' :: t => '\n' :: joinLineEnds t
  | c :: t => c :: joinLineEnds t

/-- The number of bytes of the UTF-8 form. -/
def byteSize (t : Text) : Nat := t.foldr (fun c n => c.utf8Size + n) 0

/-- Code points in the order of their numbers, position by position, and a beginning before what it
begins. -/
def precedes : Text → Text → Bool
  | [], _ => true
  | _ :: _, [] => false
  | c :: s, d :: t => c.toNat < d.toNat || (c = d && precedes s t)

/-- Texts put in the order of `precedes`. -/
def sort : List Text → List Text
  | [] => []
  | t :: ts => place t (sort ts)
where
  /-- `t` in its place among texts in order. -/
  place (t : Text) : List Text → List Text
    | [] => [t]
    | u :: us => if precedes t u then t :: u :: us else u :: place t us

/-- Decimal digits of a number. -/
def ofNat (n : Nat) : Text := Nat.toDigits 10 n

def ofInt : Int → Text
  | .ofNat n => ofNat n
  | .negSucc n => '-' :: ofNat (n + 1)

theorem afterPrefix?_append (s t : Text) : afterPrefix? s (s ++ t) = some t := by
  induction s with
  | nil => rfl
  | cons c s ih => simpa [afterPrefix?] using ih

theorem eq_append_of_afterPrefix? {s t r : Text} (h : afterPrefix? s t = some r) : t = s ++ r := by
  induction s generalizing t with
  | nil => simpa [afterPrefix?] using h
  | cons c s ih =>
    cases t with
    | nil => simp [afterPrefix?] at h
    | cons d t =>
      by_cases hd : c = d
      · simp only [afterPrefix?, hd, if_true] at h
        simp [hd, ih h]
      · simp [afterPrefix?, hd] at h

end Text

end Rehome
