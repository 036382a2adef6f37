import Reckoner.Text.Printable

/-!
# Reckoner.Text.Quoted — texts and characters in quotes

Messages show foreign text between quotes so that every byte of it can be told apart: printable
characters stand for themselves, the quote and the backslash are escaped, control characters have
short escapes or two hex digits, and a byte that is not UTF-8 is written as `\\x` and its digits.
-/

namespace Reckoner.Text

/-- A hexadecimal digit in lower case. -/
def hexDigit (n : Nat) : UInt8 := (if n < 10 then 48 + n else 87 + n).toUInt8

/-- The last `width` hexadecimal digits of `n`. -/
def hex : Nat → Nat → Bytes
  | 0, _ => []
  | width + 1, n => hex width (n / 16) ++ [hexDigit (n % 16)]

/-- The letter of a control character's short escape. -/
def shortEscape : Char → Option Char
  | '\x07' => some 'a'
  | '\x08' => some 'b'
  | '\x0c' => some 'f'
  | '\n' => some 'n'
  | '\r' => some 'r'
  | '\t' => some 't'
  | '\x0b' => some 'v'
  | _ => none

/-- A character as it stands between two `mark`s. -/
def escaped (mark c : Char) : Bytes :=
  if c = mark ∨ c = '\\' then byte '\\' :: Utf8.encode c
  else if isPrintable c then Utf8.encode c
  else match shortEscape c with
    | some letter => [byte '\\', byte letter]
    | none =>
      if c.toNat < 0x80 then utf8 "\\x" ++ hex 2 c.toNat
      else if c.toNat < 0x10000 then utf8 "\\u" ++ hex 4 c.toNat
      else utf8 "\\U" ++ hex 8 c.toNat

/-- A character in single quotes. -/
def quoteChar (c : Char) : Bytes := byte '\'' :: escaped '\'' c ++ [byte '\'']

/-- One rune of a text in double quotes. -/
def quotedRune : Rune → Bytes
  | .scalar c => escaped '"' c
  | .stray b => utf8 "\\x" ++ hex 2 b.toNat

/-- A text in double quotes. -/
def quote (s : Bytes) : Bytes :=
  Bytes.quoteMark :: (Utf8.runes s).flatMap quotedRune ++ [Bytes.quoteMark]

end Reckoner.Text
