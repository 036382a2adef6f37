import Reckoner.Number.Decimal
import Reckoner.Text.Utf8

/-!
# Reckoner.Yaml.Mark — places in a YAML text

A YAML text is a list of characters. This module holds the places in it, the classes of characters
that its structure depends on, and what can be wrong with it.
-/

namespace Reckoner.Yaml

/-- Why a text is not YAML. -/
structure Trouble where
  /-- The line, counted from one. -/
  line : Nat
  problem : String
  deriving Repr

/-- The trouble as it is reported. -/
def Trouble.message (t : Trouble) : Bytes :=
  utf8 "yaml: line " ++ Number.decimal t.line ++ utf8 ": " ++ utf8 t.problem

/-- A place in a text: characters, lines and columns before it. -/
structure Mark where
  index : Nat := 0
  line : Nat := 0
  column : Nat := 0
  deriving Repr

namespace Mark

/-- The place behind a character of the same line. -/
def next (m : Mark) : Mark := { m with index := m.index + 1, column := m.column + 1 }

/-- The place `n` characters further on the same line. -/
def skip (m : Mark) (n : Nat) : Mark := { m with index := m.index + n, column := m.column + n }

/-- The place behind a line break of `n` characters. -/
def nextLine (m : Mark) (n : Nat) : Mark := ⟨m.index + n, m.line + 1, 0⟩

/-- A trouble at this place. -/
def trouble (m : Mark) (problem : String) : Trouble := ⟨m.line + 1, problem⟩

end Mark

/-- A line break: the ASCII ones, next line, line and paragraph separator. -/
def isBreak (c : Char) : Bool :=
  c = '\n' || c = '\r' || c.toNat = 0x85 || c.toNat = 0x2028 || c.toNat = 0x2029

/-- A space or tab. -/
def isBlank (c : Char) : Bool := c = ' ' || c = '\t'

/-- A blank, a line break or the end of the text. -/
def blankOrEnd : List Char → Bool
  | [] => true
  | c :: _ => isBlank c || isBreak c

/-- What a line break contributes to a text; the Unicode separators are kept. -/
def breakText (c : Char) : Char :=
  if c.toNat = 0x2028 || c.toNat = 0x2029 then c else '\n'

/-- Does the text start with the same three characters as a document mark, and a blank behind
them? -/
def isDocumentMark : List Char → Bool
  | '-' :: '-' :: '-' :: rest => blankOrEnd rest
  | '.' :: '.' :: '.' :: rest => blankOrEnd rest
  | _ => false

/-- May the character stand in a YAML text? -/
def isAllowed (c : Char) : Bool :=
  let n := c.toNat
  n = 9 || n = 10 || n = 13 || (0x20 ≤ n && n ≤ 0x7E) || n = 0x85
    || (0xA0 ≤ n && n ≤ 0xFFFD) || 0x10000 ≤ n

/-- The byte order mark. -/
def isOrderMark (c : Char) : Bool := c.toNat = 0xFEFF

/-- The characters of a YAML text: valid UTF-8 without control characters, and without a byte order
mark at the front. -/
def charsOf (s : Bytes) : Except Trouble (List Char) :=
  let runes := Utf8.runes s
  if runes.all fun r => r.isScalar && isAllowed r.char then
    match runes.map Rune.char with
    | c :: rest => .ok (if isOrderMark c then rest else c :: rest)
    | [] => .ok []
  else .error ⟨1, "control characters are not allowed"⟩

end Reckoner.Yaml
