import Reckoner.Token
import Reckoner.Diagnostic

/-!
# Reckoner.Token.Scan — a source as tokens

A source is cut into lexemes from left to right: blanks and comments, which stand between tokens,
and the tokens themselves. Each cut takes as many bytes as belong together, and the line of a token
is one more than the number of newlines in front of it. Reading stops at the first place where
nothing fits: an unclosed string or a character that starts no token. A `Scanner` does this once and
answers every later call from what it kept.
-/

namespace Reckoner

/-- A piece of source that belongs together. -/
structure Lexeme where
  text : Bytes
  /-- The kind and value of the token; none for blanks and comments. -/
  token? : Option (TokenKind × Value)

namespace Lexeme

/-- Why no lexeme can be cut off. -/
inductive Trouble where
  | unterminatedString
  | unexpectedCharacter (c : Char)
  deriving DecidableEq, Repr

/-- The diagnostic of a trouble met on this line. -/
def Trouble.diagnostic (line : Int) : Trouble → Diagnostic
  | unterminatedString => .unterminatedString line
  | unexpectedCharacter c => .unexpectedCharacter line c

/-- The characters that are tokens by themselves. -/
def marks : List (UInt8 × TokenKind) := [
  (byte '(', .leftParen), (byte ')', .rightParen), (byte '\x7b', .leftBrace),
  (byte '\x7d', .rightBrace), (byte ',', .comma), (byte '.', .dot), (byte '-', .minus),
  (byte '+', .plus), (byte ';', .semicolon), (byte '*', .star)]

/-- The characters that may be followed by `=`, with the kinds of the longer and the shorter
token. -/
def comparisons : List (UInt8 × TokenKind × TokenKind) := [
  (byte '!', .bangEqual, .bang), (byte '=', .equalEqual, .equal),
  (byte '<', .lessEqual, .less), (byte '>', .greaterEqual, .greater)]

/-- Space, carriage return, tab and newline. -/
def isBlank (b : UInt8) : Bool := b == 32 || b == 13 || b == 9 || b == Bytes.newline

/-- The digits behind the point of a number, if the text goes on with a point and a digit. -/
def fraction (s : Bytes) : Bytes :=
  match s with
  | point :: d :: more =>
    if point = byte '.' ∧ Bytes.isDigit d then
      point :: (d :: more).takeWhile Bytes.isDigit
    else []
  | _ => []

/-- A token without a value. -/
def plain (text : Bytes) (kind : TokenKind) : Lexeme := ⟨text, some (kind, .nil)⟩

/-- The lexeme that the text `b :: rest` starts with, and what follows it. -/
def next (b : UInt8) (rest : Bytes) : Except Trouble (Lexeme × Bytes) :=
  if isBlank b then .ok (⟨[b], none⟩, rest)
  else if b = Bytes.quoteMark then
    let body := rest.takeWhile (· != Bytes.quoteMark)
    match rest.dropWhile (· != Bytes.quoteMark) with
    | [] => .error .unterminatedString
    | closing :: more => .ok (⟨b :: body ++ [closing], some (.string, .string body)⟩, more)
  else if Bytes.isDigit b then
    let whole := b :: rest.takeWhile Bytes.isDigit
    let places := fraction (rest.dropWhile Bytes.isDigit)
    let text := whole ++ places
    .ok (⟨text, some (.number, .number (Number.ofDecimal text))⟩,
      (rest.dropWhile Bytes.isDigit).drop places.length)
  else if Bytes.isWordStart b then
    let word := b :: rest.takeWhile Bytes.isWordPart
    .ok (plain word (TokenKind.ofWord word), rest.dropWhile Bytes.isWordPart)
  else if b = byte '/' then
    match rest with
    | c :: _ =>
      if c = byte '/' then
        .ok (⟨b :: rest.takeWhile (· != Bytes.newline), none⟩, rest.dropWhile (· != Bytes.newline))
      else .ok (plain [b] .slash, rest)
    | [] => .ok (plain [b] .slash, rest)
  else match comparisons.lookup b with
    | some (long, short) =>
      match rest with
      | c :: more =>
        if c = byte '=' then .ok (plain [b, c] long, more) else .ok (plain [b] short, rest)
      | [] => .ok (plain [b] short, rest)
    | none =>
      match marks.lookup b with
      | some kind => .ok (plain [b] kind, rest)
      | none => .error (.unexpectedCharacter (Utf8.next b rest).1.char)

/-- Cutting off a lexeme uses up its first byte at least. -/
theorem length_next_le {b : UInt8} {rest more : Bytes} {lexeme : Lexeme}
    (h : next b rest = .ok (lexeme, more)) : more.length ≤ rest.length := by
  have drop := Bytes.length_dropWhile_le
  unfold next at h
  split at h
  · simp_all
  · split at h
    · have hq := drop (· != Bytes.quoteMark) rest
      split at h
      · simp at h
      · rename_i heq
        simp only [Except.ok.injEq, Prod.mk.injEq] at h
        rw [heq] at hq
        simp only [List.length_cons] at hq
        rw [← h.2]
        omega
    · split at h
      · have hd := drop Bytes.isDigit rest
        simp only [Except.ok.injEq, Prod.mk.injEq] at h
        rw [← h.2, List.length_drop]
        omega
      · split at h
        · have hw := drop Bytes.isWordPart rest
          simp only [Except.ok.injEq, Prod.mk.injEq] at h
          rw [← h.2]
          exact hw
        · split at h
          · split at h
            · split at h
              · simp only [Except.ok.injEq, Prod.mk.injEq] at h
                rw [← h.2]
                exact drop _ _
              · simp only [Except.ok.injEq, Prod.mk.injEq] at h
                exact Nat.le_of_eq (by rw [← h.2])
            · simp_all
          · split at h
            · split at h
              · split at h <;> cases h
                · exact Nat.le_succ _
                · exact Nat.le_refl _
              · simp_all
            · split at h <;> simp_all

end Lexeme

namespace Token

/-- The tokens of `s`, which starts on `line`, behind the ones in `acc`, which are in reverse
order. -/
def scanFrom (acc : List Token) (line : Nat) (s : Bytes) : Except Diagnostic (List Token) :=
  match s with
  | [] => .ok (endMark line :: acc).reverse
  | b :: rest =>
    match h : Lexeme.next b rest with
    | .error trouble => .error (trouble.diagnostic line)
    | .ok (lexeme, more) =>
      have := Lexeme.length_next_le h
      let acc := match lexeme.token? with
        | some (kind, literal) => ⟨kind, lexeme.text, literal, line⟩ :: acc
        | none => acc
      scanFrom acc (line + Bytes.newlines lexeme.text) more
termination_by s.length
decreasing_by simp; omega

/-- The tokens of a source, ended by an end mark on the last line. -/
def scan (source : Bytes) : Except Diagnostic (List Token) := scanFrom [] 1 source

end Token

/-- A scanner of one source. What its first call finds is kept for the later ones. -/
structure Scanner where
  source : Bytes
  tokens : List Token := []
  fault : Option Diagnostic := none
  done : Bool := false

namespace Scanner

/-- What the first call found. -/
def kept (s : Scanner) : Except Diagnostic (List Token) :=
  match s.fault with
  | some d => .error d
  | none => .ok s.tokens

/-- The answer to a call, and the scanner behind it. -/
def call (s : Scanner) : Except Diagnostic (List Token) × Scanner :=
  if s.done then (s.kept, s)
  else
    match Token.scan s.source with
    | .error d => (.error d, { s with done := true, fault := some d })
    | .ok tokens => (.ok tokens, { s with done := true, tokens := tokens })

/-- The answers to calls that follow each other. -/
def answers (s : Scanner) : Nat → List (Except Diagnostic (List Token))
  | 0 => []
  | calls + 1 => s.call.1 :: s.call.2.answers calls

end Scanner

end Reckoner
