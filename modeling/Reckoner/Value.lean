import Reckoner.Number.Layout

/-!
# Reckoner.Value — what an expression evaluates to

A value is nil, a truth value, a double or a byte string. Values of different types are never
equal; only `false` and nil count as false; a string prints as its own bytes.
-/

namespace Reckoner

/-- The type of a value. -/
inductive ValueType where
  | nil
  | bool
  | number
  | string
  deriving DecidableEq, Repr

/-- The name of a type in messages. -/
def ValueType.name : ValueType → Bytes
  | nil => utf8 "nil"
  | bool => utf8 "bool"
  | number => utf8 "number"
  | string => utf8 "string"

/-- The types in the order of their codes. -/
def ValueType.all : List ValueType := [nil, bool, number, string]

/-- The name of the type with this code. -/
def ValueType.nameOfCode : Int → Bytes
  | .ofNat n => ((ValueType.all[n]?).map ValueType.name).getD (utf8 "unknown")
  | .negSucc _ => utf8 "unknown"

/-- A value of the language. -/
inductive Value where
  | nil
  | bool (b : Bool)
  | number (x : Float)
  | string (s : Bytes)

namespace Value

instance : Inhabited Value := ⟨nil⟩

/-- The type of a value. -/
def type : Value → ValueType
  | nil => .nil
  | bool _ => .bool
  | number _ => .number
  | string _ => .string

/-- Only `false` and nil are not truthy; zero and the empty string are. -/
def truthy : Value → Bool
  | nil => false
  | bool b => b
  | number _ => true
  | string _ => true

/-- Equality of the language: doubles compare as IEEE 754 does, so a NaN differs from itself. -/
def equals : Value → Value → Bool
  | nil, nil => true
  | bool a, bool b => a == b
  | number x, number y => x == y
  | string s, string t => s == t
  | _, _ => false

/-- The printed form of a value. -/
def text : Value → Bytes
  | nil => utf8 "nil"
  | bool b => if b then utf8 "true" else utf8 "false"
  | number x => Number.text x
  | string s => s

/-- The truth value inside, if there is one. -/
def bool? : Value → Option Bool
  | bool b => some b
  | _ => none

/-- The double inside, if there is one. -/
def number? : Value → Option Float
  | number x => some x
  | _ => none

/-- The byte string inside, if there is one. -/
def string? : Value → Option Bytes
  | string s => some s
  | _ => none

/-- What is said when `accessor` is used on a value of another type. -/
def misuse (accessor : Bytes) (v : Value) : Bytes :=
  accessor ++ utf8 " called on " ++ v.type.name ++ utf8 " value"

end Value

end Reckoner
