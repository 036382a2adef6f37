import Reckoner.Yaml.Token

/-!
# Reckoner.Yaml.Node — YAML texts as trees

A document is a tree of scalars, sequences and mappings; an alias stands for the node that its
anchor names. Only the first document of a text is read: what follows it matters only as far as
the reader looks ahead, which is two tokens.
-/

namespace Reckoner.Yaml

/-- A node of a document. -/
inductive Node where
  /-- A text; `tag` is the type it is declared to have, and `plain` texts have no quotes. -/
  | scalar (tag : Option Bytes) (text : Bytes) (plain : Bool)
  | sequence (items : List Node)
  | mapping (entries : List (Node × Node))
  | reference (name : Bytes) (target : Node)
  /-- An alias inside the node that its anchor names. -/
  | selfReference (name : Bytes)

namespace Node

instance : Inhabited Node := ⟨scalar none [] true⟩

/-- The scalar that stands where nothing is written. -/
def empty : Node := scalar none [] true

end Node

/-- Tokens on their way into a tree. -/
structure Feed where
  tokens : List Token
  /-- The trouble behind the last token, if the text could not be cut to its end. -/
  trouble : Option Trouble
  /-- The anchors met so far, the latest one first; a node that is still open is not there yet. -/
  anchors : List (List Char × Option Node) := []

namespace Feed

/-- The next token, none at the end; it is a fault to look at a token with the trouble among the
two behind it. -/
def peek (f : Feed) : Except Trouble (Option Token) :=
  match f.trouble with
  | none => .ok f.tokens.head?
  | some trouble =>
    match f.tokens with
    | t :: _ :: _ :: _ => .ok (some t)
    | _ => .error trouble

/-- Goes past a token. -/
def advance (f : Feed) : Feed := { f with tokens := f.tokens.drop 1 }

/-- Gives a name to a node. -/
def bind (f : Feed) (anchor : Option (List Char)) (n : Option Node) : Feed :=
  match anchor with
  | some name => { f with anchors := (name, n) :: f.anchors }
  | none => f

end Feed

/-- A fault of structure. -/
def misshapen (problem : String) : Trouble := ⟨1, problem⟩

/-- The short form of a tag. -/
def shortTag (handle suffix : List Char) : Except Trouble (Option Bytes) :=
  let standard := "tag:yaml.org,2002:".toList
  match handle with
  | [] =>
    if standard.isPrefixOf suffix then
      .ok (some (utf8 "!!" ++ Utf8.encodeAll (suffix.drop standard.length)))
    else if suffix = ['!'] then .ok none
    else .ok (some (Utf8.encodeAll suffix))
  | ['!'] => .ok (some (Utf8.encodeAll ('!' :: suffix)))
  | ['!', '!'] => .ok (some (utf8 "!!" ++ Utf8.encodeAll suffix))
  | _ => .error (misshapen "found undefined tag handle")

/-- What a node is declared to be: its anchor and its tag, in either order. -/
def properties (f : Feed) : Except Trouble (Option (List Char) × Option (Option Bytes) × Feed) := do
  match ← f.peek with
  | some (.anchor name) =>
    let f := f.advance
    match ← f.peek with
    | some (.tag handle suffix) => pure (some name, some (← shortTag handle suffix), f.advance)
    | _ => pure (some name, none, f)
  | some (.tag handle suffix) =>
    let tag ← shortTag handle suffix
    let f := f.advance
    match ← f.peek with
    | some (.anchor name) => pure (some name, some tag, f.advance)
    | _ => pure (none, some tag, f)
  | _ => pure (none, none, f)

mutual

/-- Reads a node. A `block` may start here or only brackets; `indentless` allows a sequence that
is not indented further than the key in front of it. `fuel` bounds the depth of the tree and the
length of its lists. -/
def readNode (fuel : Nat) (block indentless : Bool) (f : Feed) : Except Trouble (Node × Feed) :=
  match fuel with
  | 0 => .error (misshapen "exceeded max depth")
  | fuel + 1 => do
    match ← f.peek with
    | some (.reference name) =>
      match f.anchors.lookup name with
      | some (some n) => pure (.reference (Utf8.encodeAll name) n, f.advance)
      | some none => pure (.selfReference (Utf8.encodeAll name), f.advance)
      | none => .error (misshapen "unknown anchor referenced")
    | _ =>
      let (anchor, tag, f) ← properties f
      let finish (n : Node) (f : Feed) : Node × Feed := (n, f.bind anchor (some n))
      match ← f.peek with
      | some (.scalar text plain) =>
        pure (finish (.scalar (tag.getD none) (Utf8.encodeAll text) plain) f.advance)
      | some .flowSequenceStart =>
        let (items, f) ← readFlowSequence fuel [] true (f.advance.bind anchor none)
        pure (finish (.sequence items) f)
      | some .flowMappingStart =>
        let (entries, f) ← readFlowMapping fuel [] true (f.advance.bind anchor none)
        pure (finish (.mapping entries) f)
      | token =>
        if token = some .blockEntry && indentless then
          let (items, f) ← readIndentless fuel [] (f.bind anchor none)
          pure (finish (.sequence items) f)
        else if token = some .blockSequenceStart && block then
          let (items, f) ← readBlockSequence fuel [] (f.advance.bind anchor none)
          pure (finish (.sequence items) f)
        else if token = some .blockMappingStart && block then
          let (entries, f) ← readBlockMapping fuel [] (f.advance.bind anchor none)
          pure (finish (.mapping entries) f)
        else if anchor.isSome || tag.isSome then
          pure (finish (.scalar (tag.getD none) [] true) f)
        else .error (misshapen "did not find expected node content")

/-- Reads the items of a block sequence up to its end; `items` are in reverse order. -/
def readBlockSequence (fuel : Nat) (items : List Node) (f : Feed) :
    Except Trouble (List Node × Feed) :=
  match fuel with
  | 0 => .error (misshapen "exceeded max depth")
  | fuel + 1 => do
    match ← f.peek with
    | some .blockEntry =>
      let f := f.advance
      match ← f.peek with
      | some .blockEntry => readBlockSequence fuel (.empty :: items) f
      | some .blockEnd => readBlockSequence fuel (.empty :: items) f
      | _ =>
        let (n, f) ← readNode fuel true false f
        readBlockSequence fuel (n :: items) f
    | some .blockEnd => pure (items.reverse, f.advance)
    | _ => .error (misshapen "did not find expected '-' indicator")

/-- Reads the items of a sequence that has no block of its own. -/
def readIndentless (fuel : Nat) (items : List Node) (f : Feed) :
    Except Trouble (List Node × Feed) :=
  match fuel with
  | 0 => .error (misshapen "exceeded max depth")
  | fuel + 1 => do
    match ← f.peek with
    | some .blockEntry =>
      let f := f.advance
      match ← f.peek with
      | some .blockEntry => readIndentless fuel (.empty :: items) f
      | some .key => readIndentless fuel (.empty :: items) f
      | some .value => readIndentless fuel (.empty :: items) f
      | some .blockEnd => readIndentless fuel (.empty :: items) f
      | _ =>
        let (n, f) ← readNode fuel true false f
        readIndentless fuel (n :: items) f
    | _ => pure (items.reverse, f)

/-- Reads a node of a block mapping, or nothing in front of the next mark. -/
def readBlockPart (fuel : Nat) (f : Feed) : Except Trouble (Node × Feed) :=
  match fuel with
  | 0 => .error (misshapen "exceeded max depth")
  | fuel + 1 => do
    match ← f.peek with
    | some .key => pure (.empty, f)
    | some .value => pure (.empty, f)
    | some .blockEnd => pure (.empty, f)
    | _ => readNode fuel true true f

/-- Reads the entries of a block mapping up to its end. -/
def readBlockMapping (fuel : Nat) (entries : List (Node × Node)) (f : Feed) :
    Except Trouble (List (Node × Node) × Feed) :=
  match fuel with
  | 0 => .error (misshapen "exceeded max depth")
  | fuel + 1 => do
    match ← f.peek with
    | some .key =>
      let (k, f) ← readBlockPart fuel f.advance
      match ← f.peek with
      | some .value =>
        let (v, f) ← readBlockPart fuel f.advance
        readBlockMapping fuel ((k, v) :: entries) f
      | _ => readBlockMapping fuel ((k, .empty) :: entries) f
    | some .value =>
      let (v, f) ← readBlockPart fuel f.advance
      readBlockMapping fuel ((.empty, v) :: entries) f
    | some .blockEnd => pure (entries.reverse, f.advance)
    | _ => .error (misshapen "did not find expected key")

/-- Reads a node between brackets, or nothing in front of the next mark. -/
def readFlowPart (fuel : Nat) (f : Feed) : Except Trouble (Node × Feed) :=
  match fuel with
  | 0 => .error (misshapen "exceeded max depth")
  | fuel + 1 => do
    match ← f.peek with
    | some .value => pure (.empty, f)
    | some .flowEntry => pure (.empty, f)
    | some .flowSequenceEnd => pure (.empty, f)
    | some .flowMappingEnd => pure (.empty, f)
    | _ => readNode fuel false false f

/-- Reads the items of a sequence in brackets; a key makes an item a mapping of one entry. -/
def readFlowSequence (fuel : Nat) (items : List Node) (first : Bool) (f : Feed) :
    Except Trouble (List Node × Feed) :=
  match fuel with
  | 0 => .error (misshapen "exceeded max depth")
  | fuel + 1 => do
    match ← f.peek with
    | some .flowSequenceEnd => pure (items.reverse, f.advance)
    | token =>
      if !first && token ≠ some .flowEntry then
        .error (misshapen "did not find expected ',' or ']'")
      else
        let f := if first then f else f.advance
        match ← f.peek with
        | some .key =>
          let (k, f) ← readFlowPart fuel f.advance
          match ← f.peek with
          | some .value =>
            let (v, f) ← readFlowPart fuel f.advance
            readFlowSequence fuel (.mapping [(k, v)] :: items) false f
          | _ => readFlowSequence fuel (.mapping [(k, .empty)] :: items) false f
        | some .flowSequenceEnd => pure (items.reverse, f.advance)
        | _ =>
          let (n, f) ← readNode fuel false false f
          readFlowSequence fuel (n :: items) false f

/-- Reads the entries of a mapping in brackets. -/
def readFlowMapping (fuel : Nat) (entries : List (Node × Node)) (first : Bool) (f : Feed) :
    Except Trouble (List (Node × Node) × Feed) :=
  match fuel with
  | 0 => .error (misshapen "exceeded max depth")
  | fuel + 1 => do
    match ← f.peek with
    | some .flowMappingEnd => pure (entries.reverse, f.advance)
    | token =>
      if !first && token ≠ some .flowEntry then
        .error (misshapen "did not find expected ',' or '\x7d'")
      else
        let f := if first then f else f.advance
        match ← f.peek with
        | some .key =>
          let (k, f) ← readFlowPart fuel f.advance
          match ← f.peek with
          | some .value =>
            let (v, f) ← readFlowPart fuel f.advance
            readFlowMapping fuel ((k, v) :: entries) false f
          | _ => readFlowMapping fuel ((k, .empty) :: entries) false f
        | some .flowMappingEnd => pure (entries.reverse, f.advance)
        | _ =>
          let (k, f) ← readNode fuel false false f
          readFlowMapping fuel ((k, .empty) :: entries) false f

end

/-- Goes past the directives in front of a document. -/
def skipDirectives : List Token → List Token
  | .directive :: rest => skipDirectives rest
  | tokens => tokens

/-- The first document of a text; none if the text holds no document. -/
def load (s : Bytes) : Except Trouble (Option Node) := do
  let cs ← charsOf s
  let (tokens, trouble) := tokensOf cs
  let f : Feed := ⟨tokens, trouble, []⟩
  let fuel := 2 * tokens.length + 8
  match ← f.peek with
  | none => pure none
  | some first =>
    if first = .directive || first = .documentStart then
      let f := { f with tokens := skipDirectives f.tokens }
      match ← f.peek with
      | some .documentStart =>
        let f := f.advance
        match ← f.peek with
        | none => pure (some .empty)
        | some .directive => pure (some .empty)
        | some .documentStart => pure (some .empty)
        | some .documentEnd => pure (some .empty)
        | _ =>
          let (n, f) ← readNode fuel true false f
          let _ ← f.peek
          pure (some n)
      | _ => .error (misshapen "did not find expected <document start>")
    else
      let (n, f) ← readNode fuel true false f
      let _ ← f.peek
      pure (some n)

end Reckoner.Yaml
