import Reckoner.Yaml.Scalar

/-!
# Reckoner.Yaml.Token — the marks and texts of a YAML text

The structure of a block is its indentation, so tokens for the start and end of blocks are made
where the indentation grows and shrinks. A key is recognised only when the colon behind it is met:
until then a text that may turn out to be a key is remembered together with the number of its
token, and the tokens that announce it are put in front of that one.
-/

namespace Reckoner.Yaml

/-- A piece of YAML. -/
inductive Token where
  | directive
  | documentStart
  | documentEnd
  | blockSequenceStart
  | blockMappingStart
  | blockEnd
  | flowSequenceStart
  | flowSequenceEnd
  | flowMappingStart
  | flowMappingEnd
  | blockEntry
  | flowEntry
  | key
  | value
  | reference (name : List Char)
  | anchor (name : List Char)
  | tag (handle suffix : List Char)
  | scalar (text : List Char) (plain : Bool)
  deriving DecidableEq, Repr

/-- A token that may turn out to be the start of a key. -/
structure Candidate where
  /-- How many tokens precede it. -/
  number : Nat
  mark : Mark
  /-- Must it be a key, because of where it stands? -/
  required : Bool

/-- A text while it is cut into tokens. -/
structure Cutting where
  rest : List Char
  mark : Mark := {}
  /-- The tokens so far, the last one first, and how many they are. -/
  tokens : List Token := []
  size : Nat := 0
  /-- The indentation of the innermost block, -1 outside all blocks. -/
  indent : Int := -1
  /-- The indentations of the blocks around it. -/
  outer : List Int := []
  /-- May a key start at this place? -/
  keyAllowed : Bool := true
  /-- What may be a key, here and in the brackets around this place. -/
  candidate : Option Candidate := none
  outerCandidates : List (Option Candidate) := []

namespace Cutting

/-- How many brackets are open? -/
def depth (s : Cutting) : Nat := s.outerCandidates.length

/-- Is the place inside brackets? -/
def inFlow (s : Cutting) : Bool := !s.outerCandidates.isEmpty

/-- Adds a token. -/
def push (s : Cutting) (t : Token) : Cutting :=
  { s with tokens := t :: s.tokens, size := s.size + 1 }

/-- Adds a token in front of the one with this number. -/
def insert (s : Cutting) (number : Nat) (t : Token) : Cutting :=
  let behind := s.size - number
  { s with
    tokens := s.tokens.take behind ++ t :: s.tokens.drop behind
    size := s.size + 1 }

/-- Goes past `n` characters of the current line. -/
def skip (s : Cutting) (n : Nat) : Cutting :=
  { s with rest := s.rest.drop n, mark := s.mark.skip n }

/-- Forgets what may be a key; it is a fault if it had to be one. -/
def dropCandidate (s : Cutting) : Except Trouble Cutting :=
  match s.candidate with
  | some c =>
    if c.required then .error (c.mark.trouble "could not find expected ':'")
    else .ok { s with candidate := none }
  | none => .ok s

/-- Remembers that the next token may be a key. -/
def saveCandidate (s : Cutting) : Except Trouble Cutting := do
  if s.keyAllowed then
    let required := !s.inFlow && s.indent == (s.mark.column : Int)
    let s ← s.dropCandidate
    pure { s with candidate := some ⟨s.size, s.mark, required⟩ }
  else pure s

/-- What may still be a key here: it stands on the same line, at most 1024 characters back. -/
def liveCandidate (s : Cutting) : Except Trouble (Option Candidate) :=
  match s.candidate with
  | none => .ok none
  | some c =>
    if c.mark.line < s.mark.line || c.mark.index + 1024 < s.mark.index then
      if c.required then .error (c.mark.trouble "could not find expected ':'") else .ok none
    else .ok (some c)

/-- Ends the blocks that are indented further than `column`. -/
def unroll (s : Cutting) (column : Int) : Cutting :=
  if s.inFlow then s else go s s.indent s.outer
where
  /-- Ends blocks from the inside out. -/
  go (s : Cutting) (indent : Int) : List Int → Cutting
    | [] => { s with indent := indent, outer := [] }
    | i :: outer =>
      if column < indent then go (s.push .blockEnd) i outer
      else { s with indent := indent, outer := i :: outer }

/-- Starts a block at `column`, unless one has started there: `start` goes in front of the token
with this number. -/
def roll (s : Cutting) (column : Nat) (number : Nat) (start : Token) : Cutting :=
  if s.inFlow then s
  else if s.indent < column then
    { s.insert number start with indent := column, outer := s.indent :: s.outer }
  else s

/-- Goes past blanks, comments and line breaks. Tabs do not count as indentation: where a key may
start they end the space, unless a comment follows a comment. -/
def skipSpaceFrom (inFlow : Bool) (inComment : Bool) (hadComment : Bool) (allowed : Bool)
    (mark : Mark) : List Char → Bool × Mark × List Char
  | [] => (allowed, mark, [])
  | '\r' :: '\n' :: rest =>
    skipSpaceFrom inFlow false hadComment (allowed || !inFlow) (mark.nextLine 2) rest
  | c :: rest =>
    if isBreak c then
      skipSpaceFrom inFlow false hadComment (allowed || !inFlow) (mark.nextLine 1) rest
    else if inComment then skipSpaceFrom inFlow true hadComment allowed mark.next rest
    else if c = ' ' || (mark.column = 0 && isOrderMark c) then
      skipSpaceFrom inFlow false hadComment allowed mark.next rest
    else if c = '#' then skipSpaceFrom inFlow true true allowed mark.next rest
    else if c = '\t' && (inFlow || !allowed
        || (hadComment && (rest.dropWhile fun c => isBlank c || isBreak c).head? = some '#')) then
      skipSpaceFrom inFlow false hadComment allowed mark.next rest
    else (allowed, mark, c :: rest)

/-- Goes to the next token. -/
def skipSpace (s : Cutting) : Cutting :=
  let (allowed, mark, rest) := skipSpaceFrom s.inFlow false false s.keyAllowed s.mark s.rest
  { s with keyAllowed := allowed, mark := mark, rest := rest }

/-- A letter, digit, dash or underscore. -/
def isNameChar (c : Char) : Bool := c.isAlphanum || c = '_' || c = '-'

/-- A character of a tag. -/
def isTagChar (c : Char) : Bool :=
  isNameChar c || ";/?:@&=+$,.!~*'()[]%".toList.contains c

/-- Cuts an anchor or alias behind its first character. -/
def cutName (s : Cutting) (make : List Char → Token) : Except Trouble Cutting :=
  let cs := s.rest.drop 1
  let name := cs.takeWhile isNameChar
  let after := cs.dropWhile isNameChar
  let ends := blankOrEnd after ||
    (after.head?.map fun c => "?:,]\x7d%@`".toList.contains c).getD false
  if name.isEmpty || !ends then
    .error (s.mark.trouble "did not find expected alphabetic or numeric character")
  else .ok ((s.push (make name)).skip (name.length + 1))

/-- Cuts a tag: `!<uri>`, `!suffix`, `!!suffix` or `!handle!suffix`. -/
def cutTag (s : Cutting) : Except Trouble Cutting :=
  match s.rest.drop 1 with
  | '<' :: cs =>
    let uri := cs.takeWhile isTagChar
    match cs.dropWhile isTagChar with
    | '>' :: after =>
      if uri.isEmpty || !blankOrEnd after then .error (s.mark.trouble "did not find expected tag URI")
      else .ok ((s.push (.tag [] uri)).skip (uri.length + 3))
    | _ => .error (s.mark.trouble "did not find the expected '>'")
  | cs =>
    let body := cs.takeWhile isTagChar
    let after := cs.dropWhile isTagChar
    let name := body.takeWhile isNameChar
    let (handle, suffix) := match body.dropWhile isNameChar with
      | '!' :: suffix => ('!' :: name ++ ['!'], suffix)
      | _ => (['!'], body)
    if !blankOrEnd after then .error (s.mark.trouble "did not find expected whitespace or line break")
    else if handle.length > 1 && suffix.isEmpty then
      .error (s.mark.trouble "did not find expected tag URI")
    else
      .ok ((s.push (if suffix.isEmpty then .tag [] ['!'] else .tag handle suffix)).skip
        (body.length + 1))

/-- Takes over what a scalar reader found. -/
def take (s : Cutting) (plain : Bool) (found : Scanned) : Cutting :=
  { s.push (.scalar found.text plain) with mark := found.mark, rest := found.rest }

/-- Cuts the colon behind a key: the tokens that announce the key go in front of it. -/
def cutValue (s : Cutting) : Except Trouble Cutting := do
  match ← s.liveCandidate with
  | some c =>
    let s := s.insert c.number .key
    let s := s.roll c.mark.column c.number .blockMappingStart
    pure (({ s with candidate := none, keyAllowed := false }.push .value).skip 1)
  | none =>
    let s := { s with candidate := none }
    if s.inFlow then pure (({ s with keyAllowed := false }.push .value).skip 1)
    else if !s.keyAllowed then
      .error (s.mark.trouble "mapping values are not allowed in this context")
    else
      let s := s.roll s.mark.column s.size .blockMappingStart
      pure (({ s with keyAllowed := true }.push .value).skip 1)

/-- Cuts the start of a bracket. -/
def cutOpening (s : Cutting) (t : Token) : Except Trouble Cutting := do
  let s ← s.saveCandidate
  let s := { s with
    outerCandidates := s.candidate :: s.outerCandidates, candidate := none, keyAllowed := true }
  pure ((s.push t).skip 1)

/-- Cuts the end of a bracket. -/
def cutClosing (s : Cutting) (t : Token) : Except Trouble Cutting := do
  let s ← s.dropCandidate
  let s := match s.outerCandidates with
    | c :: outer => { s with candidate := c, outerCandidates := outer }
    | [] => s
  pure (({ s with keyAllowed := false }.push t).skip 1)

/-- Cuts a document mark. -/
def cutDocument (s : Cutting) (t : Token) : Except Trouble Cutting := do
  let s ← (s.unroll (-1)).dropCandidate
  pure (({ s with keyAllowed := false }.push t).skip 3)

/-- Is this a directive? It names the version, which has to be 1.1, or a handle for tags. -/
def isDirective (line : List Char) : Bool :=
  "%TAG ".toList.isPrefixOf line ||
    match (line.drop 5).dropWhile isBlank with
    | '1' :: '.' :: '1' :: after =>
      "%YAML".toList.isPrefixOf line && blankOrEnd (line.drop 5) && blankOrEnd after
        && (after.dropWhile isBlank).head?.all (· = '#')
    | _ => false

/-- Cuts a directive, which takes up its line. -/
def cutDirective (s : Cutting) : Except Trouble Cutting := do
  let s ← (s.unroll (-1)).dropCandidate
  let line := s.rest.takeWhile fun c => !isBreak c
  if isDirective line then pure (({ s with keyAllowed := false }.push .directive).skip line.length)
  else .error (s.mark.trouble "found unknown directive")

/-- Can a plain scalar start with `c` in front of `rest`? -/
def startsPlain (inFlow : Bool) (c : Char) (rest : List Char) : Bool :=
  !(isBlank c || "-?:,[]\x7b\x7d#&*!|>'\"%@`".toList.contains c)
    || (c = '-' && !(rest.head?.map isBlank).getD false)
    || (!inFlow && (c = '?' || c = ':') && !blankOrEnd rest)

/-- Cuts the token that starts with `c`. -/
def cutToken (s : Cutting) (c : Char) (rest : List Char) : Except Trouble Cutting := do
  if s.mark.column = 0 && c = '%' then s.cutDirective
  else if s.mark.column = 0 && isDocumentMark (c :: rest) then
    s.cutDocument (if c = '-' then .documentStart else .documentEnd)
  else match c with
    | '[' => s.cutOpening .flowSequenceStart
    | '\x7b' => s.cutOpening .flowMappingStart
    | ']' => s.cutClosing .flowSequenceEnd
    | '\x7d' => s.cutClosing .flowMappingEnd
    | ',' => do
      let s ← s.dropCandidate
      pure (({ s with keyAllowed := true }.push .flowEntry).skip 1)
    | '*' => do
      let s ← s.saveCandidate
      { s with keyAllowed := false }.cutName .reference
    | '&' => do
      let s ← s.saveCandidate
      { s with keyAllowed := false }.cutName .anchor
    | '!' => do
      let s ← s.saveCandidate
      { s with keyAllowed := false }.cutTag
    | '\'' => do
      let s ← s.saveCandidate
      pure (({ s with keyAllowed := false }).take false
        (← singleQuotedFrom [] {} s.mark.next rest))
    | '"' => do
      let s ← s.saveCandidate
      pure (({ s with keyAllowed := false }).take false
        (← doubleQuotedFrom [] {} s.mark.next rest))
    | _ =>
      if c = '-' && blankOrEnd rest then do
        if !s.inFlow && !s.keyAllowed then
          .error (s.mark.trouble "block sequence entries are not allowed in this context")
        else
          let s ← (s.roll s.mark.column s.size .blockSequenceStart).dropCandidate
          pure (({ s with keyAllowed := true }.push .blockEntry).skip 1)
      else if c = '?' && (s.inFlow || blankOrEnd rest) then do
        if !s.inFlow && !s.keyAllowed then
          .error (s.mark.trouble "mapping keys are not allowed in this context")
        else
          let s ← (s.roll s.mark.column s.size .blockMappingStart).dropCandidate
          pure (({ s with keyAllowed := !s.inFlow }.push .key).skip 1)
      else if c = ':' && (s.inFlow || blankOrEnd rest) then s.cutValue
      else if (c = '|' || c = '>') && !s.inFlow then do
        let s ← s.dropCandidate
        pure (({ s with keyAllowed := true }).take false
          (← blockScalar (c = '>') s.indent s.mark.next rest))
      else if startsPlain s.inFlow c rest then do
        let s ← s.saveCandidate
        let found ← plainFrom s.inFlow (s.indent + 1) [] {} true s.mark (c :: rest)
        pure ({ s with keyAllowed := found.broken }.take true found)
      else .error (s.mark.trouble "found character that cannot start any token")

/-- Cuts the text to its end, or to the first trouble; `fuel` bounds the number of tokens. -/
def run : Nat → Cutting → List Token × Option Trouble
  | 0, s => (s.tokens.reverse, none)
  | fuel + 1, s =>
    let s := s.skipSpace
    let s := s.unroll s.mark.column
    match s.rest with
    | [] =>
      let s := s.unroll (-1)
      match s.dropCandidate with
      | .ok s => (s.tokens.reverse, none)
      | .error trouble => (s.tokens.reverse, some trouble)
    | c :: rest =>
      match s.cutToken c rest with
      | .ok s => run fuel s
      | .error trouble => (s.tokens.reverse, some trouble)

end Cutting

/-- The tokens of a YAML text, and the trouble at which they break off. Every token takes up a
character at least, so their number is bounded by the length of the text. -/
def tokensOf (cs : List Char) : List Token × Option Trouble :=
  Cutting.run (cs.length + 1) { rest := cs }

end Reckoner.Yaml
