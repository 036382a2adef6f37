import Reckoner.Value

/-!
# Reckoner.Token — the words of a source

A token is a piece of source with a kind, the line it starts on and, for strings and numbers, the
value it stands for.
-/

namespace Reckoner

/-- What a token is. -/
inductive TokenKind where
  | leftParen | rightParen | leftBrace | rightBrace | comma | dot | minus | plus | semicolon
  | slash | star
  | bang | bangEqual | equal | equalEqual | greater | greaterEqual | less | lessEqual
  | identifier | string | number
  | andWord | classWord | elseWord | falseWord | funWord | forWord | ifWord | nilWord | orWord
  | printWord | returnWord | superWord | thisWord | trueWord | varWord | whileWord
  | eof
  /-- A kind that is none of the above. -/
  | unknown
  deriving DecidableEq, Repr

namespace TokenKind

/-- The kinds with their names, in the order of their codes. -/
def table : List (TokenKind × String) := [
  (leftParen, "LEFT_PAREN"), (rightParen, "RIGHT_PAREN"), (leftBrace, "LEFT_BRACE"),
  (rightBrace, "RIGHT_BRACE"), (comma, "COMMA"), (dot, "DOT"), (minus, "MINUS"), (plus, "PLUS"),
  (semicolon, "SEMICOLON"), (slash, "SLASH"), (star, "STAR"), (bang, "BANG"),
  (bangEqual, "BANG_EQUAL"), (equal, "EQUAL"), (equalEqual, "EQUAL_EQUAL"), (greater, "GREATER"),
  (greaterEqual, "GREATER_EQUAL"), (less, "LESS"), (lessEqual, "LESS_EQUAL"),
  (identifier, "IDENTIFIER"), (string, "STRING"), (number, "NUMBER"), (andWord, "AND"),
  (classWord, "CLASS"), (elseWord, "ELSE"), (falseWord, "FALSE"),
  (funWord, "FUN"), (forWord, "FOR"), (ifWord, "IF"), (nilWord, "NIL"), (orWord, "OR"),
  (printWord, "PRINT"), (returnWord, "RETURN"), (superWord, "SUPER"), (thisWord, "THIS"),
  (trueWord, "TRUE"), (varWord, "VAR"), (whileWord, "WHILE"), (eof, "EOF")]

/-- The name of a kind. -/
def name (k : TokenKind) : Bytes := utf8 ((table.lookup k).getD "UNKNOWN")

/-- The kind with this code. -/
def ofCode : Int → TokenKind
  | .ofNat n => ((table[n]?).map Prod.fst).getD unknown
  | .negSucc _ => unknown

/-- The kind with this name. -/
def ofName (s : String) : TokenKind :=
  ((table.find? fun entry => entry.2 == s).map Prod.fst).getD unknown

/-- The reserved words. -/
def keywords : List (Bytes × TokenKind) := [
  (utf8 "and", andWord), (utf8 "class", classWord), (utf8 "else", elseWord),
  (utf8 "false", falseWord), (utf8 "fun", funWord), (utf8 "for", forWord),
  (utf8 "if", ifWord), (utf8 "nil", nilWord), (utf8 "or", orWord), (utf8 "print", printWord),
  (utf8 "return", returnWord), (utf8 "super", superWord), (utf8 "this", thisWord),
  (utf8 "true", trueWord), (utf8 "var", varWord), (utf8 "while", whileWord)]

/-- The kind of a word: reserved, or an identifier. -/
def ofWord (word : Bytes) : TokenKind := (keywords.lookup word).getD identifier

/-- Do tokens of this kind carry a value? -/
def hasLiteral : TokenKind → Bool
  | string => true
  | number => true
  | _ => false

/-- Does a statement start with a token of this kind? Reading goes on there after a fault. -/
def startsStatement : TokenKind → Bool
  | classWord => true
  | funWord => true
  | varWord => true
  | forWord => true
  | ifWord => true
  | whileWord => true
  | printWord => true
  | returnWord => true
  | _ => false

/-- How tightly a binary operator binds: equality, comparison, sum, product. -/
def level? : TokenKind → Option Nat
  | bangEqual => some 0
  | equalEqual => some 0
  | greater => some 1
  | greaterEqual => some 1
  | less => some 1
  | lessEqual => some 1
  | minus => some 2
  | plus => some 2
  | slash => some 3
  | star => some 3
  | _ => none

/-- Is it an operator in front of an operand? -/
def isUnary : TokenKind → Bool
  | bang => true
  | minus => true
  | _ => false

end TokenKind

/-- A piece of source with its meaning. -/
structure Token where
  kind : TokenKind
  /-- The bytes of the source. -/
  lexeme : Bytes
  /-- The value of a string or number, nil for all other kinds. -/
  literal : Value
  /-- The line that the token starts on, counted from one. -/
  line : Int

namespace Token

instance : Inhabited Token := ⟨⟨.eof, [], .nil, 1⟩⟩

/-- The mark behind the last token of a source. -/
def endMark (line : Int) : Token := ⟨.eof, [], .nil, line⟩

/-- Is it an end mark? -/
def isEnd (t : Token) : Bool := t.kind = .eof

/-- The token as it is listed: kind, lexeme and, where there is one, value. -/
def text (t : Token) : Bytes :=
  t.kind.name ++ utf8 " " ++ t.lexeme
    ++ (if t.kind.hasLiteral then utf8 " " ++ t.literal.text else [])

/-- The value that the token stands for as an operand. -/
def operand? (t : Token) : Option Value :=
  match t.kind with
  | .falseWord => some (.bool false)
  | .trueWord => some (.bool true)
  | .nilWord => some .nil
  | .number => some t.literal
  | .string => some t.literal
  | _ => none

end Token

end Reckoner
