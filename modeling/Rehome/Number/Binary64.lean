import Rehome.Text.Digit

/-! Binary floating-point numbers of 64 bits, held exactly. A decimal is read as the number nearest
to it; of two equally near ones the one with an even significand is taken. -/

namespace Rehome

inductive Binary64 where
  /-- `significand * 2 ^ exponent`. -/
  | finite (significand exponent : Int)
  | infinite
  | nan
  deriving DecidableEq

namespace Binary64

def significandBits : Nat := 53

/-- Significands stay below. -/
def significandLimit : Nat := Nat.pow 2 significandBits

def minExponent : Int := -1074

def maxExponent : Int := 971

/-- `n / d` to the nearest whole number, halves to the even one. -/
def roundHalfEven (n d : Nat) : Nat :=
  let q := n / d
  let r := n % d
  if d < 2 * r ∨ (2 * r = d ∧ q % 2 = 1) then q + 1 else q

/-- `n / d` in units of `2 ^ e`, as a fraction. -/
def scale (n d : Nat) (e : Int) : Nat × Nat :=
  if e < 0 then (n * Nat.pow 2 (-e).toNat, d) else (n, d * Nat.pow 2 e.toNat)

/-- The number nearest to `n / d`, up to sign. -/
def ofRatio (negative : Bool) (n d : Nat) : Binary64 :=
  let low : Int := (n.log2 : Int) - d.log2 - significandBits
  let (n₀, d₀) := scale n d low
  let fit := if n₀ / d₀ < significandLimit then low else low + 1
  let e := max fit minExponent
  let (n₁, d₁) := scale n d e
  let q := roundHalfEven n₁ d₁
  if maxExponent < e ∨ (e = maxExponent ∧ significandLimit ≤ q) then infinite
  else finite (if negative then -q else q) e

/-- The number nearest to `m * 10 ^ e`, up to sign. Decimals far outside the range are settled by
their size alone. -/
def ofDecimal (negative : Bool) (m : Nat) (e : Int) : Binary64 :=
  let size : Int := (Nat.toDigits 10 m).length + e
  if m = 0 ∨ size < -330 then finite 0 0
  else if 330 < size then infinite
  else if e < 0 then ofRatio negative m (Nat.pow 10 (-e).toNat)
  else ofRatio negative (m * Nat.pow 10 e.toNat) 1

/-- The value of a number without a fractional part. -/
def integer? : Binary64 → Option Int
  | finite s e =>
    let unit : Int := Nat.pow 2 e.natAbs
    if 0 ≤ e then some (s * unit) else if s % unit = 0 then some (s / unit) else none
  | _ => none

example : (ofDecimal false 9007199254740993 0).integer? = some 9007199254740992 := by decide +kernel
example : ofDecimal false 5 (-324) = finite 1 (-1074) := by decide +kernel
example : ofDecimal false 1 400 = infinite := by decide +kernel

end Binary64

end Rehome
