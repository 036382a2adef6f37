import Reckoner.Value
import Reckoner.Text.Quoted

/-!
# Reckoner.Json — JSON values and their text

The written text has no blanks, and members stand in the order they are given. Strings are made
safe for HTML pages: `<`, `>`, `&` and the two Unicode line separators are escaped, and a byte that
is not UTF-8 is replaced by U+FFFD.
-/

namespace Reckoner

/-- A JSON value; a number is kept as it is written. -/
inductive Json where
  | null
  | bool (b : Bool)
  | number (text : Bytes)
  | string (s : Bytes)
  | array (items : List Json)
  | object (members : List (Bytes × Json))

namespace Json

/-- A character inside a JSON string. -/
def escaped (c : Char) : Bytes :=
  match c with
  | '"' => utf8 "\\\""
  | '\\' => utf8 "\\\\"
  | '\x08' => utf8 "\\b"
  | '\x0c' => utf8 "\\f"
  | '\n' => utf8 "\\n"
  | '\r' => utf8 "\\r"
  | '\t' => utf8 "\\t"
  | _ =>
    if c.toNat < 0x20 ∨ c = '<' ∨ c = '>' ∨ c = '&' ∨ c.toNat = 0x2028 ∨ c.toNat = 0x2029 then
      utf8 "\\u" ++ Text.hex 4 c.toNat
    else Utf8.encode c

/-- A JSON string. -/
def quoted (s : Bytes) : Bytes :=
  Bytes.quoteMark :: (Utf8.chars s).flatMap escaped ++ [Bytes.quoteMark]

/-- The text of a JSON value. -/
def text : Json → Bytes
  | null => utf8 "null"
  | bool b => if b then utf8 "true" else utf8 "false"
  | number t => t
  | string s => quoted s
  | array items => byte '[' :: Bytes.join [byte ','] (items.map text) ++ [byte ']']
  | object members =>
    byte '\x7b' :: Bytes.join [byte ','] (members.map fun member =>
      quoted member.1 ++ byte ':' :: member.2.text) ++ [byte '\x7d']
termination_by j => sizeOf j
decreasing_by
  · rename_i h
    have := List.sizeOf_lt_of_mem h
    simp
    omega
  · rename_i h
    have := List.sizeOf_lt_of_mem h
    cases member
    simp at this ⊢
    omega

/-- A whole number. -/
def ofInt (n : Int) : Json := number (Number.decimalInt n)

/-- A finite double. -/
def ofFloat (x : Float) : Json := number (Number.jsonText x)

end Json

/-- A value as JSON; what is no number in JSON becomes a string. -/
def Value.json : Value → Json
  | .nil => .null
  | .bool b => .bool b
  | .number x => if Number.isFinite x then .ofFloat x else .string (Number.text x)
  | .string s => .string s

end Reckoner
