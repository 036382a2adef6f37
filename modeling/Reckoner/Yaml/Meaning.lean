import Reckoner.Number.Double
import Reckoner.Number.Integer
import Reckoner.Yaml.Node

/-!
# Reckoner.Yaml.Meaning — what a scalar stands for

A scalar without quotes is null, a switch, an integer, a fraction or a text, as its spelling says;
one with quotes is a text. A tag overrides the spelling and must fit it. The place that a scalar is
read into has the last word: a text may be read from any of them, as it is written.
-/

namespace Reckoner.Yaml

/-- What a scalar stands for. -/
inductive Meaning where
  | null
  | bool (b : Bool)
  | int (n : Int)
  | float (x : Float)
  | text (s : Bytes)

/-- Is the text one of these words? -/
def isOneOf (words : List String) (s : Bytes) : Bool := words.any (utf8 · = s)

/-- A decimal fraction: digits with a point among them or in front, then maybe an exponent. -/
def readFraction (s : Bytes) : Option Float := do
  let negative := s.head? = some (byte '-')
  let s := if negative || s.head? = some (byte '+') then s.drop 1 else s
  let whole := s.takeWhile Bytes.isDigit
  let s := s.dropWhile Bytes.isDigit
  let pointed := s.head? = some (byte '.')
  let s := if pointed then s.drop 1 else s
  let places := if pointed then s.takeWhile Bytes.isDigit else []
  let s := if pointed then s.dropWhile Bytes.isDigit else s
  guard !(whole.isEmpty && places.isEmpty)
  let digits := Number.ofDigits (whole ++ places)
  let exponent ← exponentOf s
  let exponent : Int := if digits = 0 then 0 else exponent
  -- far beyond the range of doubles the exact power does not matter
  let shift : Int := max (-2000 - (whole ++ places).length : Int) (min (exponent - places.length) 2000)
  let x := if 0 ≤ shift then Number.ofRatio (digits * Nat.pow 10 shift.toNat) 1
    else Number.ofRatio digits (Nat.pow 10 (-shift).toNat)
  guard (Number.isFinite x)
  pure (if negative then -x else x)
where
  /-- The exponent at the end of a fraction, zero if there is none. -/
  exponentOf : Bytes → Option Int
    | [] => some 0
    | mark :: s => do
      guard (mark = byte 'e' || mark = byte 'E')
      let negative := s.head? = some (byte '-')
      let s := if negative || s.head? = some (byte '+') then s.drop 1 else s
      guard (!s.isEmpty && s.all Bytes.isDigit)
      let n : Int := Number.ofDigits s
      pure (if negative then -n else n)

/-- An integer in a base with the sign behind the base mark, as in `0o-17`. -/
def readInBase (base : Nat) (s : Bytes) : Option Int :=
  match Number.readSigned (Number.readWord base) s with
  | .ok n => some n
  | .error _ =>
    match Number.readWord base s with
    | .ok n => some n
    | .error _ => none

/-- An integer with a base mark in front of its sign. -/
def readMarked (s : Bytes) : Option Int :=
  match s with
  | 48 :: 98 :: rest => readInBase 2 rest
  | 48 :: 111 :: rest => readInBase 8 rest
  | 45 :: 48 :: 98 :: rest => (Number.readSigned (Number.readWord 2) (45 :: rest)).toOption
  | 45 :: 48 :: 111 :: rest => (Number.readSigned (Number.readWord 8) (45 :: rest)).toOption
  | _ => none

/-- The number a text stands for that starts with a digit or a sign; underscores are ignored. -/
def readNumber (s : Bytes) : Option Meaning :=
  let digits := s.filter (· ≠ byte '_')
  match Number.readAnyInt digits with
  | .ok n => some (.int n)
  | .error _ =>
    match Number.readAnyWord digits with
    | .ok n => some (.int n)
    | .error _ =>
      match readFraction digits with
      | some x => some (.float x)
      | none => (readMarked digits).map .int

/-- What a scalar without quotes stands for. -/
def Meaning.ofPlain (s : Bytes) : Meaning :=
  if isOneOf ["", "~", "null", "Null", "NULL"] s then .null
  else if isOneOf ["true", "True", "TRUE"] s then .bool true
  else if isOneOf ["false", "False", "FALSE"] s then .bool false
  else if isOneOf [".nan", ".NaN", ".NAN"] s then .float (Float.ofBits 0x7FF8000000000001)
  else if isOneOf [".inf", ".Inf", ".INF", "+.inf", "+.Inf", "+.INF"] s then
    .float (Float.ofBits 0x7FF0000000000000)
  else if isOneOf ["-.inf", "-.Inf", "-.INF"] s then .float (Float.ofBits 0xFFF0000000000000)
  else
    match s with
    | [] => .null
    | b :: _ =>
      if Bytes.isDigit b || b = byte '+' || b = byte '-' then (readNumber s).getD (.text s)
      else if b = byte '.' && Number.gapsAllowed s then
        ((readFraction (s.filter (· ≠ byte '_'))).map .float).getD (.text s)
      else .text s

/-- What came of reading a node into a place of some type. -/
inductive Reading (α : Type) where
  | value (a : α)
  /-- The node is null, which leaves the place as it is. -/
  | absent
  /-- The node has another type; the rest of the document is still read. -/
  | mismatch
  /-- The document cannot be read further. -/
  | fatal

/-- Carries a function through a reading. -/
def Reading.map {α β : Type} (f : α → β) : Reading α → Reading β
  | value a => .value (f a)
  | absent => .absent
  | mismatch => .mismatch
  | fatal => .fatal

/-- What a scalar stands for, given its tag; none if they contradict each other. -/
def Meaning.ofScalar (tag : Option Bytes) (text : Bytes) (plain : Bool) : Option Meaning :=
  match tag with
  | none => some (if plain then ofPlain text else .text text)
  | some tag =>
    let meaning := ofPlain text
    if tag = utf8 "!!null" then
      match meaning with
      | .null => some .null
      | _ => none
    else if tag = utf8 "!!bool" then
      match meaning with
      | .bool b => some (.bool b)
      | _ => none
    else if tag = utf8 "!!int" then
      match meaning with
      | .int n => some (.int n)
      | _ => none
    else if tag = utf8 "!!float" then
      match meaning with
      | .float x => some (.float x)
      | .int n => some (.float (if n < 0 then -Number.ofRatio n.natAbs 1 else Number.ofRatio n.natAbs 1))
      | _ => none
    else some (.text text)

namespace Node

/-- The node an alias stands for; none for an alias inside its own node. -/
def target? : Node → Option Node
  | reference _ n => some n
  | selfReference _ => none
  | n => some n

/-- Reads a scalar; `of` takes its meaning and its text. -/
def readScalar {α : Type} (of : Meaning → Bytes → Option α) (n : Node) : Reading α :=
  match n.target? with
  | some (scalar tag text plain) =>
    match Meaning.ofScalar tag text plain with
    | none => .fatal
    | some .null => .absent
    | some m => (of m text).elim .mismatch .value
  | some _ => .mismatch
  | none => .fatal

/-- Reads a text: every scalar but null, as it is written. -/
def readText : Node → Reading Bytes := readScalar fun _ text => some text

/-- Reads a switch: also the words yes and no, on and off. -/
def readSwitch : Node → Reading Bool := readScalar fun m _ =>
  match m with
  | .bool b => some b
  | .text s =>
    if isOneOf ["y", "Y", "yes", "Yes", "YES", "on", "On", "ON"] s then some true
    else if isOneOf ["n", "N", "no", "No", "NO", "off", "Off", "OFF"] s then some false
    else none
  | _ => none

/-- A double without its fraction, as an integer of 64 bits: what is too large for one becomes the
least of them. -/
def wholePart (x : Float) : Int :=
  let n : Int := Number.units (Number.magnitude x) / Number.unitsPerOne
  let n := if Number.isNegative x then -n else n
  if Number.isFinite x && -Int.pow 2 63 ≤ n && n < Int.pow 2 63 then n else -Int.pow 2 63

/-- Reads an integer of 64 bits; a fraction loses its places. -/
def readInt : Node → Reading Int := readScalar fun m _ =>
  match m with
  | .int n => if n < Int.pow 2 63 then some n else none
  | .float x => if x ≤ Number.ofRatio (Nat.pow 2 63) 1 then some (wholePart x) else none
  | _ => none

end Node

end Reckoner.Yaml
