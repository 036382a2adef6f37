import Reckoner.Number.Shortest

/-!
# Reckoner.Number.Layout — doubles as text

Three layouts of a double: positional with the fewest digits, positional or scientific as JSON
wants it, and with a fixed number of places.
-/

namespace Reckoner.Number

/-- `n` zero digits. -/
def zeros (n : Nat) : Bytes := List.replicate n 48

/-- The digits of `digits` with a point in front of the last `places` of them. -/
def withPoint (digits places : Nat) : Bytes :=
  if places = 0 then decimal digits
  else
    let s := Bytes.padLeft (places + 1) 48 (decimal digits)
    s.take (s.length - places) ++ byte '.' :: s.drop (s.length - places)

/-- Positional notation. -/
def Decimal.positional (d : Decimal) : Bytes :=
  match d.grid with
  | .ofNat g => decimal d.digits ++ (if d.digits = 0 then [] else zeros g)
  | .negSucc g => withPoint d.digits (g + 1)

/-- Scientific notation: one digit in front of the point, the exponent with its sign. -/
def Decimal.scientific (d : Decimal) : Bytes :=
  let s := decimal d.digits
  let e : Int := d.grid + (s.length - 1 : Nat)
  let tail := s.drop 1
  s.take 1 ++ (if tail.isEmpty then [] else byte '.' :: tail) ++ [byte 'e']
    ++ (if e < 0 then byte '-' else byte '+') :: decimal e.natAbs

/-- The sign in front of a negative double; zero keeps its sign. -/
def sign (x : Float) : Bytes := if isNegative x then [byte '-'] else []

/-- The printed form of a number: as few digits as read back, never an exponent. -/
def text (x : Float) : Bytes :=
  if isNaN x then utf8 "NaN"
  else if isInfinite x then sign x ++ utf8 "inf"
  else sign x ++ (shortest (magnitude x)).positional

/-- The smallest magnitude that JSON text writes positionally, `10 ^ -6`. -/
def jsonLeast : Nat := nearestBits 1 (Nat.pow 10 6)

/-- The smallest magnitude that JSON text writes scientifically again, `10 ^ 21`. -/
def jsonLimit : Nat := nearestBits (Nat.pow 10 21) 1

/-- The JSON form of a finite number. -/
def jsonText (x : Float) : Bytes :=
  let n := magnitude x
  let d := shortest n
  sign x ++ (if n = 0 ∨ (jsonLeast ≤ n ∧ n < jsonLimit) then d.positional else d.scientific)

/-- A finite number with a fixed number of places; the exact value is rounded, a half to the even
last digit. -/
def fixed (places : Nat) (x : Float) : Bytes :=
  sign x ++ withPoint (roundHalfEven (units (magnitude x) * Nat.pow 10 places) unitsPerOne) places

end Reckoner.Number
