import Reckoner.Number.Decimal
import Reckoner.Text.Quoted

/-!
# Reckoner.Diagnostic — one complaint about a source

A diagnostic names what is wrong (its kind), the line it is anchored at, the place on that line if
the fault is in the grammar, and a sentence. The kind decides which phase reports it.
-/

namespace Reckoner

/-- The stage that finds a fault. -/
inductive Phase where
  | scan
  | parse
  | runtime
  deriving DecidableEq, Repr

/-- The name of a phase. -/
def Phase.name : Phase → Bytes
  | scan => utf8 "scan"
  | parse => utf8 "parse"
  | runtime => utf8 "runtime"

/-- What kind of fault a diagnostic reports. -/
inductive DiagnosticKind where
  | unexpectedCharacter
  | unterminatedString
  | expectedToken
  | unexpectedExpression
  | typeError
  /-- A kind that this library never reports itself. -/
  | other (name : Bytes)
  deriving DecidableEq, Repr

namespace DiagnosticKind

/-- The name of a kind. -/
def name : DiagnosticKind → Bytes
  | unexpectedCharacter => utf8 "UnexpectedCharacter"
  | unterminatedString => utf8 "UnterminatedString"
  | expectedToken => utf8 "ExpectedToken"
  | unexpectedExpression => utf8 "UnexpectedExpression"
  | typeError => utf8 "TypeError"
  | other s => s

/-- The kinds that this library reports. -/
def all : List DiagnosticKind :=
  [unexpectedCharacter, unterminatedString, expectedToken, unexpectedExpression, typeError]

/-- The kind of this name. -/
def ofName (s : Bytes) : DiagnosticKind :=
  (all.find? fun k => k.name == s).getD (other s)

/-- Is it one of the kinds that this library reports? -/
def known : DiagnosticKind → Bool
  | other _ => false
  | _ => true

/-- The stage that reports this kind; unknown kinds count as found while running. -/
def phase : DiagnosticKind → Phase
  | unexpectedCharacter => .scan
  | unterminatedString => .scan
  | expectedToken => .parse
  | unexpectedExpression => .parse
  | typeError => .runtime
  | other _ => .runtime

end DiagnosticKind

/-- A complaint anchored at a line of the source. -/
structure Diagnostic where
  kind : DiagnosticKind
  line : Int
  /-- Where on the line, as it follows the word "Error": empty, `at end` or `at 'lexeme'`. -/
  place : Bytes
  detail : Bytes
  deriving DecidableEq, Repr

namespace Diagnostic

/-- The diagnostic as it is reported. -/
def message (d : Diagnostic) : Bytes :=
  utf8 "[line " ++ Number.decimalInt d.line ++ utf8 "] Error" ++ d.place ++ utf8 ": " ++ d.detail

/-- Was the fault found before anything was evaluated? -/
def isStatic (d : Diagnostic) : Bool := d.kind.phase != .runtime

/-- A character that starts no token. -/
def unexpectedCharacter (line : Int) (c : Char) : Diagnostic where
  kind := .unexpectedCharacter
  line := line
  place := []
  detail := utf8 "Unexpected character " ++ Text.quoteChar c ++ utf8 "."

/-- A string without its closing quote, reported at the line it began on. -/
def unterminatedString (line : Int) : Diagnostic where
  kind := .unterminatedString
  line := line
  place := []
  detail := utf8 "Unterminated string."

/-- A token other than the one that the grammar wants. -/
def expectedToken (line : Int) (place detail : Bytes) : Diagnostic where
  kind := .expectedToken
  line := line
  place := place
  detail := detail

/-- A token that no expression starts with. -/
def unexpectedExpression (line : Int) (place : Bytes) : Diagnostic where
  kind := .unexpectedExpression
  line := line
  place := place
  detail := utf8 "Expect expression."

/-- An operator applied to values of the wrong type. -/
def typeError (line : Int) (detail : Bytes) : Diagnostic where
  kind := .typeError
  line := line
  place := []
  detail := detail

end Diagnostic

end Reckoner
