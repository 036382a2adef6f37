import Reckoner.Text.Utf8

/-!
# Reckoner.Text.Excerpt — the start of a text

Cutting a text short counts characters, a byte that is not UTF-8 as one of them, and never cuts
through one.
-/

namespace Reckoner.Text

/-- The text, if it has at most `limit` characters; else its first `limit` characters and an
ellipsis. -/
def truncate (limit : Nat) (s : Bytes) : Bytes :=
  let runes := Utf8.runes s
  if runes.length ≤ limit then s
  else Utf8.encodeAll ((runes.take limit).map Rune.char) ++ utf8 "..."

/-- How many lines a text has; the empty one has none. -/
def countLines (s : Bytes) : Nat := if s.isEmpty then 0 else Bytes.newlines s + 1

end Reckoner.Text
