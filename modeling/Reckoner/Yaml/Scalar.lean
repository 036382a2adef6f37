import Reckoner.Yaml.Mark

/-!
# Reckoner.Yaml.Scalar — the texts in a YAML text

Scalars come plain, in quotes or as blocks. Lines of plain and quoted scalars are folded: one line
break becomes a space, and of several the first is dropped. Each reader walks over the characters
once and says where it stopped.
-/

namespace Reckoner.Yaml

/-- White space that was met inside a scalar and is not part of its text yet. -/
structure Gap where
  /-- The blanks in front of the first line break, last one first. -/
  blanks : List Char := []
  /-- Was there a line break? -/
  broken : Bool := false
  /-- The first line break, if it stands for something. -/
  first : List Char := []
  /-- The line breaks after it, last one first. -/
  more : List Char := []

namespace Gap

/-- The gap behind a blank. -/
def blank (g : Gap) (c : Char) : Gap := if g.broken then g else { g with blanks := c :: g.blanks }

/-- The gap behind a line break. -/
def lineBreak (g : Gap) (c : Char) : Gap :=
  if g.broken then { g with more := breakText c :: g.more }
  else ⟨[], true, [breakText c], g.more⟩

/-- The gap behind a line break that a backslash hides. -/
def hiddenBreak : Gap := ⟨[], true, [], []⟩

/-- What the gap stands for once more text follows, last character first. -/
def folded (g : Gap) : List Char :=
  if g.broken then
    if g.first = ['\n'] then (if g.more.isEmpty then [' '] else g.more) else g.more ++ g.first
  else g.blanks

end Gap

/-- A scalar's text with the place and the characters behind it. -/
structure Scanned where
  text : List Char
  mark : Mark
  rest : List Char
  /-- Did the scalar end behind a line break? -/
  broken : Bool := false

/-- Ends a plain scalar inside brackets. -/
def isFlowMark (c : Char) : Bool :=
  c = ',' || c = '?' || c = '[' || c = ']' || c = '\x7b' || c = '\x7d'

/-- Reads a plain scalar: `text` is what it holds so far, last character first, and `fresh` says
whether the next character starts a new run behind white space. A plain scalar ends at a comment,
at a colon in front of a blank, at a document mark and, outside brackets, at a line that is
indented by less than `indent`. -/
def plainFrom (inFlow : Bool) (indent : Int) (text : List Char) (gap : Gap) (fresh : Bool)
    (mark : Mark) : List Char → Except Trouble Scanned
  | [] => .ok ⟨text.reverse, mark, [], gap.broken⟩
  | '\r' :: '\n' :: rest =>
    plainFrom inFlow indent text (gap.lineBreak '\n') true (mark.nextLine 2) rest
  | c :: rest =>
    if isBlank c then
      if gap.broken && c = '\t' && mark.column < indent then
        .error (mark.trouble "found a tab character that violates indentation")
      else plainFrom inFlow indent text (gap.blank c) true mark.next rest
    else if isBreak c then
      plainFrom inFlow indent text (gap.lineBreak c) true (mark.nextLine 1) rest
    else
      let ended :=
        (fresh && ((!inFlow && gap.broken && mark.column < indent) || c = '#'
          || (mark.column = 0 && isDocumentMark (c :: rest))))
        || (c = ':' && blankOrEnd rest) || (inFlow && isFlowMark c)
      if ended then .ok ⟨text.reverse, mark, c :: rest, gap.broken⟩
      else plainFrom inFlow indent (c :: gap.folded ++ text) {} false mark.next rest

/-- Reads the rest of a scalar in single quotes. -/
def singleQuotedFrom (text : List Char) (gap : Gap) (mark : Mark) :
    List Char → Except Trouble Scanned
  | [] => .error (mark.trouble "found unexpected end of stream")
  | '\'' :: '\'' :: rest => singleQuotedFrom ('\'' :: gap.folded ++ text) {} (mark.skip 2) rest
  | '\'' :: rest => .ok ⟨(gap.folded ++ text).reverse, mark.next, rest, false⟩
  | '\r' :: '\n' :: rest => singleQuotedFrom text (gap.lineBreak '\n') (mark.nextLine 2) rest
  | c :: rest =>
    if isBlank c then singleQuotedFrom text (gap.blank c) mark.next rest
    else if isBreak c then singleQuotedFrom text (gap.lineBreak c) (mark.nextLine 1) rest
    else if mark.column = 0 && isDocumentMark (c :: rest) then
      .error (mark.trouble "found unexpected document indicator")
    else singleQuotedFrom (c :: gap.folded ++ text) {} mark.next rest

/-- The value of a hexadecimal digit. -/
def hexValue? (c : Char) : Option Nat :=
  if '0' ≤ c ∧ c ≤ '9' then some (c.toNat - 48)
  else if 'a' ≤ c ∧ c ≤ 'f' then some (c.toNat - 87)
  else if 'A' ≤ c ∧ c ≤ 'F' then some (c.toNat - 55)
  else none

/-- The character that hexadecimal digits stand for. -/
def hexChar? (digits : List Char) : Option Char := do
  let n ← digits.foldlM (fun n c => (hexValue? c).map (16 * n + ·)) 0
  if n < 0xD800 ∨ (0xDFFF < n ∧ n ≤ 0x10FFFF) then some (Char.ofNat n) else none

/-- The character that a one-letter escape stands for. -/
def escapeChar? : Char → Option Char
  | '0' => some (Char.ofNat 0)
  | 'a' => some '\x07'
  | 'b' => some '\x08'
  | 't' => some '\t'
  | '\t' => some '\t'
  | 'n' => some '\n'
  | 'v' => some '\x0b'
  | 'f' => some '\x0c'
  | 'r' => some '\r'
  | 'e' => some '\x1b'
  | ' ' => some ' '
  | '"' => some '"'
  | '\'' => some '\''
  | '\\' => some '\\'
  | 'N' => some (Char.ofNat 0x85)
  | '_' => some (Char.ofNat 0xA0)
  | 'L' => some (Char.ofNat 0x2028)
  | 'P' => some (Char.ofNat 0x2029)
  | _ => none

/-- Reads the rest of a scalar in double quotes. -/
def doubleQuotedFrom (text : List Char) (gap : Gap) (mark : Mark) :
    List Char → Except Trouble Scanned
  | [] => .error (mark.trouble "found unexpected end of stream")
  | '"' :: rest => .ok ⟨(gap.folded ++ text).reverse, mark.next, rest, false⟩
  | '\\' :: '\r' :: '\n' :: rest =>
    doubleQuotedFrom (gap.folded ++ text) .hiddenBreak (mark.next.nextLine 2) rest
  | '\\' :: 'x' :: a :: b :: rest =>
    match hexChar? [a, b] with
    | some c => doubleQuotedFrom (c :: gap.folded ++ text) {} (mark.skip 4) rest
    | none => .error (mark.trouble "did not find expected hexdecimal number")
  | '\\' :: 'u' :: a :: b :: c :: d :: rest =>
    match hexChar? [a, b, c, d] with
    | some c => doubleQuotedFrom (c :: gap.folded ++ text) {} (mark.skip 6) rest
    | none => .error (mark.trouble "found invalid Unicode character escape code")
  | '\\' :: 'U' :: a :: b :: c :: d :: e :: f :: g :: h :: rest =>
    match hexChar? [a, b, c, d, e, f, g, h] with
    | some c => doubleQuotedFrom (c :: gap.folded ++ text) {} (mark.skip 10) rest
    | none => .error (mark.trouble "found invalid Unicode character escape code")
  | '\\' :: c :: rest =>
    if isBreak c then
      doubleQuotedFrom (gap.folded ++ text) .hiddenBreak (mark.next.nextLine 1) rest
    else match escapeChar? c with
      | some c => doubleQuotedFrom (c :: gap.folded ++ text) {} (mark.skip 2) rest
      | none => .error (mark.trouble "found unknown escape character")
  | '\r' :: '\n' :: rest => doubleQuotedFrom text (gap.lineBreak '\n') (mark.nextLine 2) rest
  | c :: rest =>
    if isBlank c then doubleQuotedFrom text (gap.blank c) mark.next rest
    else if isBreak c then doubleQuotedFrom text (gap.lineBreak c) (mark.nextLine 1) rest
    else if mark.column = 0 && isDocumentMark (c :: rest) then
      .error (mark.trouble "found unexpected document indicator")
    else doubleQuotedFrom (c :: gap.folded ++ text) {} mark.next rest

/-! ## Blocks -/

/-- What becomes of the line breaks at the end of a block. -/
inductive Chomping where
  | strip
  | clip
  | keep
  deriving DecidableEq

/-- A block while it is read; texts hold their last character first. -/
structure Block where
  text : List Char := []
  /-- The line break behind the last line. -/
  lineEnd : List Char := []
  /-- The empty lines behind it. -/
  empty : List Char := []
  /-- Did the last line start with a blank? -/
  startedBlank : Bool := false
  /-- Is the reader inside a line, rather than in front of one? -/
  inLine : Bool := false
  /-- The columns that every line is indented by; none as long as no line has been met. -/
  indent : Option Nat
  /-- The largest indentation met in front of the first line. -/
  widest : Nat := 0

/-- A new line starts with `c`: the break in front of it is folded in a folded block, unless one
of the two lines starts with a blank. -/
def Block.startLine (folded : Bool) (b : Block) (c : Char) : Block :=
  let joint :=
    if folded && !b.startedBlank && !isBlank c && b.lineEnd = ['\n'] then
      (if b.empty.isEmpty then [' '] else [])
    else b.lineEnd
  { b with
    text := b.empty ++ joint ++ b.text
    lineEnd := []
    empty := []
    startedBlank := isBlank c
    inLine := true }

/-- The text of a block that has ended. -/
def Block.finish (chomping : Chomping) (b : Block) : List Char :=
  match chomping with
  | .strip => b.text.reverse
  | .clip => (b.lineEnd ++ b.text).reverse
  | .keep => (b.empty ++ b.lineEnd ++ b.text).reverse

/-- Reads the lines of a block behind its header. The first line that is not empty settles the
indentation if the header does not; it is `least` columns at least. -/
def blockFrom (folded : Bool) (chomping : Chomping) (least : Nat) (b : Block) (mark : Mark) :
    List Char → Except Trouble Scanned
  | [] => .ok ⟨b.finish chomping, mark, [], true⟩
  | '\r' :: '\n' :: rest =>
    if b.inLine then
      blockFrom folded chomping least { b with lineEnd := ['\n'], inLine := false }
        (mark.nextLine 2) rest
    else
      blockFrom folded chomping least
        { b with empty := '\n' :: b.empty, widest := max b.widest mark.column }
        (mark.nextLine 2) rest
  | c :: rest =>
    if b.inLine then
      if isBreak c then
        blockFrom folded chomping least { b with lineEnd := [breakText c], inLine := false }
          (mark.nextLine 1) rest
      else blockFrom folded chomping least { b with text := c :: b.text } mark.next rest
    else
      let indenting := match b.indent with
        | none => true
        | some n => mark.column < n
      if indenting && c = ' ' then blockFrom folded chomping least b mark.next rest
      else if indenting && c = '\t' then
        .error (mark.trouble "found a tab character where an indentation space is expected")
      else
        let widest := max b.widest mark.column
        if isBreak c then
          blockFrom folded chomping least { b with empty := breakText c :: b.empty, widest := widest }
            (mark.nextLine 1) rest
        else
          let indent := b.indent.getD (max widest least)
          if mark.column = indent then
            let b := Block.startLine folded { b with indent := some indent } c
            blockFrom folded chomping least { b with text := c :: b.text } mark.next rest
          else .ok ⟨b.finish chomping, mark, c :: rest, true⟩

/-- A block's header: the chomping and the indentation it gives, and the characters behind it. -/
def blockHeader (mark : Mark) : List Char → Except Trouble (Chomping × Option Nat × Mark × List Char)
  | '+' :: d :: rest => if d.isDigit then digit .keep d (mark.skip 2) rest
      else .ok (.keep, none, mark.next, d :: rest)
  | '-' :: d :: rest => if d.isDigit then digit .strip d (mark.skip 2) rest
      else .ok (.strip, none, mark.next, d :: rest)
  | ['+'] => .ok (.keep, none, mark.next, [])
  | ['-'] => .ok (.strip, none, mark.next, [])
  | d :: rest =>
    if d.isDigit then
      match rest with
      | '+' :: rest => digit .keep d (mark.skip 2) rest
      | '-' :: rest => digit .strip d (mark.skip 2) rest
      | rest => digit .clip d mark.next rest
    else .ok (.clip, none, mark, d :: rest)
  | [] => .ok (.clip, none, mark, [])
where
  /-- The header whose digit is `d`. -/
  digit (chomping : Chomping) (d : Char) (mark : Mark) (rest : List Char) :
      Except Trouble (Chomping × Option Nat × Mark × List Char) :=
    if d = '0' then .error (mark.trouble "found an indentation indicator equal to 0")
    else .ok (chomping, some (d.toNat - 48), mark, rest)

/-- The rest of a line that may hold blanks and a comment only. -/
def emptyLineEnd (mark : Mark) (cs : List Char) : Except Trouble (Mark × List Char) :=
  let blanks := cs.takeWhile isBlank
  let rest := cs.dropWhile isBlank
  let mark := mark.skip blanks.length
  let (mark, rest) := match rest with
    | '#' :: _ =>
      (mark.skip (rest.takeWhile fun c => !isBreak c).length, rest.dropWhile fun c => !isBreak c)
    | _ => (mark, rest)
  match rest with
  | [] => .ok (mark, [])
  | '\r' :: '\n' :: rest => .ok (mark.nextLine 2, rest)
  | c :: rest =>
    if isBreak c then .ok (mark.nextLine 1, rest)
    else .error (mark.trouble "did not find expected comment or line break")

/-- Reads a block behind its `|` or `>`; `parent` is the indentation around it. -/
def blockScalar (folded : Bool) (parent : Int) (mark : Mark) (cs : List Char) :
    Except Trouble Scanned := do
  let (chomping, given, mark, cs) ← blockHeader mark cs
  let (mark, cs) ← emptyLineEnd mark cs
  let indent := given.map fun n => if 0 ≤ parent then parent.toNat + n else n
  let least := max (parent + 1).toNat 1
  blockFrom folded chomping least { indent := indent } mark cs

end Reckoner.Yaml
