import Reckoner.Text.Utf8

/-!
# Reckoner.Text.Blank — white space around a text

White space is the Unicode property: the ASCII blanks, U+0085, U+00A0 and the space separators.
Zero-width characters are not blank, and neither is a stray byte.
-/

namespace Reckoner.Text

/-- Does the character have the Unicode property White_Space? -/
def isBlank (c : Char) : Bool :=
  let n := c.toNat
  (9 ≤ n && n ≤ 13) || n == 0x20 || n == 0x85 || n == 0xA0 || n == 0x1680
    || (0x2000 ≤ n && n ≤ 0x200A) || n == 0x2028 || n == 0x2029 || n == 0x202F
    || n == 0x205F || n == 0x3000

/-- Is the rune a blank character? -/
def isBlankRune : Rune → Bool
  | .scalar c => isBlank c
  | .stray _ => false

/-- The text without the blanks at its two ends. -/
def trim (s : Bytes) : Bytes :=
  let front := (Utf8.runes s).dropWhile isBlankRune
  let core := (front.reverse.dropWhile isBlankRune).reverse
  core.flatMap Rune.bytes

end Reckoner.Text
