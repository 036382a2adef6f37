/-!
# Reckoner.Text.Bytes — byte strings

Every text of this library is a list of bytes: sources, lexemes, string values and messages need
not be valid UTF-8. This module holds the list's own vocabulary: words written as string literals
(`utf8`), single ASCII characters (`byte`), search, splitting and padding.
-/

namespace Reckoner

/-- A text: its bytes in order, valid UTF-8 or not. -/
abbrev Bytes := List UInt8

/-- The UTF-8 bytes of a string. -/
def utf8 (s : String) : Bytes := s.toUTF8.data.toList

/-- The byte of an ASCII character. -/
def byte (c : Char) : UInt8 := c.toUInt8

namespace Bytes

/-- The newline byte. -/
abbrev newline : UInt8 := 10

/-- The double quote byte. -/
abbrev quoteMark : UInt8 := 34

/-- An ASCII digit. -/
def isDigit (b : UInt8) : Bool := 48 ≤ b && b ≤ 57

/-- An ASCII letter or the underscore: what an identifier starts with. -/
def isWordStart (b : UInt8) : Bool :=
  (97 ≤ b && b ≤ 122) || (65 ≤ b && b ≤ 90) || b == 95

/-- A character inside an identifier. -/
def isWordPart (b : UInt8) : Bool := isWordStart b || isDigit b

/-- How many newline bytes a text holds. -/
def newlines (s : Bytes) : Nat := s.count newline

/-- The ASCII letters of a text in lower case; all other bytes unchanged. -/
def lower (s : Bytes) : Bytes := s.map fun b => if 65 ≤ b && b ≤ 90 then b + 32 else b

/-- Does `needle` occur in the text? The empty text occurs everywhere. -/
def mentions (needle : Bytes) : Bytes → Bool
  | [] => needle.isEmpty
  | b :: rest => needle.isPrefixOf (b :: rest) || mentions needle rest

/-- The text cut at every `sep`; always one piece more than there are separators. -/
def splitAt (sep : UInt8) (s : Bytes) : List Bytes :=
  s.foldr
    (fun b pieces =>
      if b = sep then [] :: pieces
      else match pieces with
        | [] => [[b]]
        | piece :: more => (b :: piece) :: more)
    [[]]

/-- The texts in order with `sep` between neighbours. -/
def join (sep : Bytes) : List Bytes → Bytes
  | [] => []
  | piece :: more => piece ++ more.flatMap (sep ++ ·)

/-- At least `width` bytes: `fill` is put in front as often as needed. -/
def padLeft (width : Nat) (fill : UInt8) (s : Bytes) : Bytes :=
  List.replicate (width - s.length) fill ++ s

/-- The texts in order, each ended by a newline. -/
def lines (texts : List Bytes) : Bytes := texts.flatMap (· ++ [newline])

@[simp]
theorem newlines_nil : newlines [] = 0 := rfl

@[simp]
theorem newlines_append (s t : Bytes) : newlines (s ++ t) = newlines s + newlines t := by
  simp [newlines, List.count_append]

/-- What is left behind a run of bytes is no longer than the text. -/
theorem length_dropWhile_le (p : UInt8 → Bool) (s : Bytes) :
    (s.dropWhile p).length ≤ s.length := by
  induction s with
  | nil => exact Nat.le_refl _
  | cons b rest ih =>
    rw [List.dropWhile_cons]
    split
    · exact Nat.le_trans ih (Nat.le_succ _)
    · exact Nat.le_refl _

end Bytes

end Reckoner
