import Reckoner.Number.Decimal

/-!
# Reckoner.Number.Double — doubles as exact fractions

The magnitude of a double is read off its bits: as numbers, the bit patterns of the non-negative
doubles are in the order of their values, so a magnitude is a natural number below
`infinityBits`. Its value is `mantissa n * 2 ^ scale n / 2 ^ 1074`, a fraction of whole numbers.
`nearestBits` goes the other way: it rounds a fraction to the nearest magnitude, a tie to the even
mantissa.
-/

namespace Reckoner.Number

/-- The magnitude of infinity; larger ones are not numbers. -/
def infinityBits : Nat := 0x7FF * Nat.pow 2 52

/-- The bits of a double without its sign. -/
def magnitude (x : Float) : Nat := x.toBits.toNat % Nat.pow 2 63

/-- Is the sign bit set? -/
def isNegative (x : Float) : Bool := Nat.pow 2 63 ≤ x.toBits.toNat

/-- Is the double not a number? -/
def isNaN (x : Float) : Bool := infinityBits < magnitude x

/-- Is the double an infinity of either sign? -/
def isInfinite (x : Float) : Bool := magnitude x == infinityBits

/-- Is the double a number other than the infinities? -/
def isFinite (x : Float) : Bool := magnitude x < infinityBits

/-- The whole-number mantissa of a finite magnitude. -/
def mantissa (n : Nat) : Nat := if n / Nat.pow 2 52 = 0 then n else Nat.pow 2 52 + n % Nat.pow 2 52

/-- The exponent of two of a finite magnitude, counted from the smallest one. -/
def scale (n : Nat) : Nat := n / Nat.pow 2 52 - 1

/-- The value of a finite magnitude in units of `2 ^ -1074`. -/
def units (n : Nat) : Nat := mantissa n * Nat.pow 2 (scale n)

/-- How many units make one. -/
def unitsPerOne : Nat := Nat.pow 2 1074

/-- A fraction rounded to the nearest whole number, a half to the even one. -/
def roundHalfEven (num den : Nat) : Nat :=
  let q := num / den
  let r := num % den
  if 2 * r < den then q
  else if den < 2 * r then q + 1
  else if q % 2 = 0 then q else q + 1

/-- The magnitude nearest to a fraction, a tie to the even mantissa; what is too large for a double
gives infinity. -/
def nearestBits (num den : Nat) : Nat :=
  let scaled := num * unitsPerOne
  let e := (scaled / den).log2 + 1 - 53
  min (e * Nat.pow 2 52 + roundHalfEven scaled (den * Nat.pow 2 e)) infinityBits

/-- The non-negative double nearest to a fraction. -/
def ofRatio (num den : Nat) : Float := Float.ofBits (nearestBits num den).toUInt64

/-- The double that a decimal text stands for: digits, and maybe a point and more digits. -/
def ofDecimal (s : Bytes) : Float :=
  let whole := s.takeWhile Bytes.isDigit
  let places := (s.dropWhile Bytes.isDigit).drop 1
  ofRatio (ofDigits (whole ++ places)) (Nat.pow 10 places.length)

end Reckoner.Number
