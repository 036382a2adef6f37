import Reckoner.Number.Decimal
import Reckoner.Text.Quoted

/-!
# Reckoner.Number.Integer — integers and switches in settings

Integers of 64 bits as users write them: in decimal with a sign, or with a base in front
(`0x10`, `0b11`, `010`) and underscores between digits. Switches are a dozen spellings of true and
false. A text that is refused is either misspelt or out of range; the range is met first when the
digits in front of a misspelling are already too many.
-/

namespace Reckoner.Number

/-- Why a text is refused. -/
inductive Refusal where
  | misspelt
  | outOfRange
  deriving DecidableEq, Repr

/-- The refusal of a text by the reader of this name. -/
def Refusal.message (reader : String) (text : Bytes) (r : Refusal) : Bytes :=
  utf8 "strconv." ++ utf8 reader ++ utf8 ": parsing " ++ Text.quote text ++ utf8 ": " ++
    match r with
    | .misspelt => utf8 "invalid syntax"
    | .outOfRange => utf8 "value out of range"

/-- The value of a digit in any base up to 36. -/
def anyDigit? (b : UInt8) : Option Nat :=
  if Bytes.isDigit b then some (b.toNat - 48)
  else if 97 ≤ b && b ≤ 122 then some (b.toNat - 87)
  else if 65 ≤ b && b ≤ 90 then some (b.toNat - 55)
  else none

/-- The largest number of 64 bits. -/
def maxWord : Nat := Nat.pow 2 64 - 1

/-- Reads digits of a base behind the number `n`; `gaps` allows underscores anywhere. -/
def readDigits (base : Nat) (gaps : Bool) (n : Nat) : Bytes → Except Refusal Nat
  | [] => .ok n
  | b :: rest =>
    if gaps && b = byte '_' then readDigits base gaps n rest
    else
      match anyDigit? b with
      | none => .error .misspelt
      | some d =>
        if base ≤ d then .error .misspelt
        else if maxWord < n * base + d then .error .outOfRange
        else readDigits base gaps (n * base + d) rest

/-- The base a text announces and what stands behind the announcement. -/
def announcedBase : Bytes → Nat × Bytes
  | 48 :: mark :: rest =>
    if rest.isEmpty then (8, mark :: rest)
    else if mark = byte 'b' || mark = byte 'B' then (2, rest)
    else if mark = byte 'o' || mark = byte 'O' then (8, rest)
    else if mark = byte 'x' || mark = byte 'X' then (16, rest)
    else (8, mark :: rest)
  | 48 :: rest => (8, rest)
  | s => (10, s)

/-- Do the underscores of a text stand between digits? `before` says whether a digit or the base
is in front, and `after` whether an underscore is. -/
def gapsBetween (hex before after : Bool) : Bytes → Bool
  | [] => !after
  | b :: rest =>
    if Bytes.isDigit b || hex && (anyDigit? b).any (· < 16) then gapsBetween hex true false rest
    else if b = byte '_' then before && gapsBetween hex false true rest
    else !after && gapsBetween hex false false rest

/-- Are the underscores of an unsigned number where they may be? -/
def gapsAllowed : Bytes → Bool
  | 48 :: mark :: rest =>
    if mark = byte 'x' || mark = byte 'X' then gapsBetween true true false rest
    else if mark = byte 'b' || mark = byte 'B' || mark = byte 'o' || mark = byte 'O' then
      gapsBetween false true false rest
    else gapsBetween false false false (48 :: mark :: rest)
  | s => gapsBetween false false false s

/-- An unsigned number of 64 bits in a base. -/
def readWord (base : Nat) (s : Bytes) : Except Refusal Nat :=
  if s.isEmpty then .error .misspelt else readDigits base false 0 s

/-- An unsigned number of 64 bits that may announce its base and hold underscores. -/
def readAnyWord (s : Bytes) : Except Refusal Nat :=
  if s.isEmpty then .error .misspelt
  else
    let (base, digits) := announcedBase s
    match readDigits base true 0 digits with
    | .error r => .error r
    | .ok n => if s.contains (byte '_') && !gapsAllowed s then .error .misspelt else .ok n

/-- Reads a sign in front of an unsigned number; the result has 64 bits with its sign. -/
def readSigned (word : Bytes → Except Refusal Nat) (s : Bytes) : Except Refusal Int :=
  match s with
  | 43 :: rest => positive (word rest)
  | 45 :: rest =>
    match word rest with
    | .error r => .error r
    | .ok n => if n ≤ Nat.pow 2 63 then .ok (-n) else .error .outOfRange
  | _ => positive (word s)
where
  /-- A number without a minus sign. -/
  positive : Except Refusal Nat → Except Refusal Int
    | .error r => .error r
    | .ok n => if n < Nat.pow 2 63 then .ok n else .error .outOfRange

/-- A decimal integer of 64 bits: an optional sign and digits. -/
def readInt (s : Bytes) : Except Refusal Int := readSigned (readWord 10) s

/-- An integer of 64 bits that may announce its base. -/
def readAnyInt (s : Bytes) : Except Refusal Int := readSigned readAnyWord s

/-- A switch. -/
def readSwitch (s : Bytes) : Except Refusal Bool :=
  if ["1", "t", "T", "TRUE", "true", "True"].any (utf8 · = s) then .ok true
  else if ["0", "f", "F", "FALSE", "false", "False"].any (utf8 · = s) then .ok false
  else .error .misspelt

end Reckoner.Number
