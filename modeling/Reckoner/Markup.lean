import Reckoner.Http

/-!
# Reckoner.Markup — pages with holes

A page is a list of pieces: markup, which is copied, and texts, which are escaped. Nothing of a text
can be read as markup, because the characters that start or end tags, attributes and references are
written as references.
-/

namespace Reckoner.Markup

/-- A piece of a page. -/
inductive Piece where
  | markup (html : Bytes)
  | text (content : Bytes)

/-- A byte of a text on a page. -/
def escapedByte (b : UInt8) : Bytes :=
  if b = 0 then Utf8.encode Rune.replacement
  else if b = byte '+' then utf8 "&#43;"
  else Http.escapedByte b

/-- A text on a page. -/
def escape (s : Bytes) : Bytes := s.flatMap escapedByte

/-- A piece as it is sent. -/
def Piece.render : Piece → Bytes
  | markup html => html
  | text content => escape content

/-- A page as it is sent. -/
def render (pieces : List Piece) : Bytes := pieces.flatMap Piece.render

/-- Markup written as a literal. -/
def html (s : String) : Piece := .markup (utf8 s)

end Reckoner.Markup
