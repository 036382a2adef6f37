import Reckoner.Json

/-!
# Reckoner.Json.Reader — JSON values from text

Reading goes in two steps: the text is cut into marks, words, numbers and strings, and these are
put together by a machine whose stack holds the arrays and objects that are still open. In
strings, a lone half of a surrogate pair and a byte that is not UTF-8 are read as U+FFFD.
-/

namespace Reckoner.Json

/-- A piece of JSON text. -/
inductive Mark where
  | openArray
  | closeArray
  | openObject
  | closeObject
  | comma
  | colon
  /-- A word, a number or a string. -/
  | leaf (j : Json)

/-! ## Strings -/

/-- The value of a hexadecimal digit. -/
def hexDigit? (b : UInt8) : Option Nat :=
  if 48 ≤ b && b ≤ 57 then some (b.toNat - 48)
  else if 97 ≤ b && b ≤ 102 then some (b.toNat - 87)
  else if 65 ≤ b && b ≤ 70 then some (b.toNat - 55)
  else none

/-- The value of four hexadecimal digits. -/
def unit? (a b c d : UInt8) : Option Nat := do
  let a ← hexDigit? a
  let b ← hexDigit? b
  let c ← hexDigit? c
  let d ← hexDigit? d
  pure (((a * 16 + b) * 16 + c) * 16 + d)

/-- The first half of a surrogate pair. -/
def isHighSurrogate (u : Nat) : Bool := 0xD800 ≤ u && u < 0xDC00

/-- The second half of a surrogate pair. -/
def isLowSurrogate (u : Nat) : Bool := 0xDC00 ≤ u && u < 0xE000

/-- The character of a unit that stands alone. -/
def loneUnit (u : Nat) : Char :=
  if isHighSurrogate u || isLowSurrogate u then Rune.replacement else Char.ofNat u

/-- The character of a surrogate pair. -/
def pairedUnits (high low : Nat) : Char :=
  Char.ofNat (0x10000 + (high - 0xD800) * 0x400 + (low - 0xDC00))

/-- What a short escape stands for. -/
def shortEscape? (b : UInt8) : Option UInt8 :=
  if b = byte '"' then some 34
  else if b = byte '\\' then some 92
  else if b = byte '/' then some 47
  else if b = byte 'b' then some 8
  else if b = byte 'f' then some 12
  else if b = byte 'n' then some 10
  else if b = byte 'r' then some 13
  else if b = byte 't' then some 9
  else none

/-- Reads a numeric escape; gives its unit and what follows. -/
def unitAt? : Bytes → Option (Nat × Bytes)
  | s :: u :: a :: b :: c :: d :: rest =>
    if s = 92 && u = byte 'u' then (unit? a b c d).map fun n => (n, rest) else none
  | _ => none

/-- Reads one character of a string, `b` being its first byte: the bytes it stands for, and what
follows. -/
def stringStep (b : UInt8) (rest : Bytes) : Option (Bytes × Bytes) :=
  if b = 92 then
    match unitAt? (b :: rest) with
    | some (u, more) =>
      match unitAt? more with
      | some (v, further) =>
        if isHighSurrogate u && isLowSurrogate v then
          some (Utf8.encode (pairedUnits u v), further)
        else some (Utf8.encode (loneUnit u), more)
      | none => some (Utf8.encode (loneUnit u), more)
    | none =>
      match rest with
      | [] => none
      | e :: more => (shortEscape? e).map fun c => ([c], more)
  else if b < 32 then none
  else some ([b], rest)

theorem length_unitAt?_lt {s rest : Bytes} {u : Nat} (h : unitAt? s = some (u, rest)) :
    rest.length + 6 = s.length := by
  unfold unitAt? at h
  split at h
  · split at h
    · simp only [Option.map_eq_some_iff, Prod.mk.injEq] at h
      obtain ⟨_, _, _, rfl⟩ := h
      simp
    · contradiction
  · contradiction

/-- A character takes at least one byte. -/
theorem length_stringStep_le {b : UInt8} {rest piece more : Bytes}
    (h : stringStep b rest = some (piece, more)) : more.length ≤ rest.length := by
  unfold stringStep at h
  split at h
  · split at h
    · rename_i u first hu
      have := length_unitAt?_lt hu
      simp only [List.length_cons] at this
      split at h
      · rename_i v further hv
        have := length_unitAt?_lt hv
        split at h <;> simp only [Option.some.injEq, Prod.mk.injEq] at h <;>
          obtain ⟨_, rfl⟩ := h <;> omega
      · simp only [Option.some.injEq, Prod.mk.injEq] at h
        obtain ⟨_, rfl⟩ := h
        omega
    · split at h
      · contradiction
      · simp only [Option.map_eq_some_iff, Prod.mk.injEq] at h
        obtain ⟨_, _, _, rfl⟩ := h
        simp
  · split at h
    · contradiction
    · simp only [Option.some.injEq, Prod.mk.injEq] at h
      obtain ⟨_, rfl⟩ := h
      exact Nat.le_refl _

/-- Reads a string up to its closing quote; `done` holds the bytes so far in reverse order. Gives
the bytes and what follows the quote. -/
def stringOnto (done : Bytes) : Bytes → Option (Bytes × Bytes)
  | [] => none
  | b :: rest =>
    if b = Bytes.quoteMark then some (done.reverse, rest)
    else
      match _h : stringStep b rest with
      | none => none
      | some (piece, more) => stringOnto (piece.reverse ++ done) more
termination_by s => s.length
decreasing_by
  have := length_stringStep_le _h
  simp only [List.length_cons]
  omega

/-- A text with U+FFFD for each byte that is not UTF-8. -/
def mended (s : Bytes) : Bytes := Utf8.encodeAll (Utf8.chars s)

/-! ## Numbers and words -/

/-- A character of a number. -/
def isNumberPart (b : UInt8) : Bool :=
  Bytes.isDigit b || b = byte '+' || b = byte '-' || b = byte '.' || b = byte 'e' || b = byte 'E'

/-- Is this the exponent of a number, or nothing? -/
def isExponent : Bytes → Bool
  | [] => true
  | b :: rest =>
    let digits := match rest with
      | 43 :: digits => digits
      | 45 :: digits => digits
      | digits => digits
    (b = byte 'e' || b = byte 'E') && !digits.isEmpty && digits.all Bytes.isDigit

/-- Are these the places of a number and its exponent, or nothing? -/
def isFraction : Bytes → Bool
  | 46 :: rest =>
    !(rest.takeWhile Bytes.isDigit).isEmpty && isExponent (rest.dropWhile Bytes.isDigit)
  | s => isExponent s

/-- Is this a number? Its whole part has no needless zeros in front. -/
def isNumber (s : Bytes) : Bool :=
  let s := if s.head? = some (byte '-') then s.drop 1 else s
  let whole := s.takeWhile Bytes.isDigit
  !whole.isEmpty && (whole.length = 1 || whole.head? ≠ some (byte '0'))
    && isFraction (s.dropWhile Bytes.isDigit)

/-- A lower-case letter. -/
def isLetter (b : UInt8) : Bool := 97 ≤ b && b ≤ 122

/-- What a word stands for. -/
def word? (s : Bytes) : Option Json :=
  if s = utf8 "null" then some .null
  else if s = utf8 "true" then some (.bool true)
  else if s = utf8 "false" then some (.bool false)
  else none

/-! ## Marks -/

/-- A blank between marks. -/
def isSpace (b : UInt8) : Bool := b = 32 || b = 9 || b = 10 || b = 13

/-- A mark of one byte. -/
def punctuation? (b : UInt8) : Option Mark :=
  if b = byte '[' then some .openArray
  else if b = byte ']' then some .closeArray
  else if b = byte '\x7b' then some .openObject
  else if b = byte '\x7d' then some .closeObject
  else if b = byte ',' then some .comma
  else if b = byte ':' then some .colon
  else none

/-- The first mark of a text that is not blank, and what follows it. -/
def mark? (b : UInt8) (rest : Bytes) : Option (Mark × Bytes) :=
  match punctuation? b with
  | some m => some (m, rest)
  | none =>
    if b = Bytes.quoteMark then
      (stringOnto [] rest).map fun (s, rest) => (.leaf (.string (mended s)), rest)
    else if isLetter b then
      (word? (b :: rest.takeWhile isLetter)).map fun j => (.leaf j, rest.dropWhile isLetter)
    else if isNumber (b :: rest.takeWhile isNumberPart) then
      some (.leaf (.number (b :: rest.takeWhile isNumberPart)), rest.dropWhile isNumberPart)
    else none

/-- What follows a string is shorter than the string with it. -/
theorem length_stringOnto_le {done s t rest : Bytes} (h : stringOnto done s = some (t, rest)) :
    rest.length ≤ s.length := by
  fun_induction stringOnto done s with
  | case1 => contradiction
  | case2 =>
    simp only [Option.some.injEq, Prod.mk.injEq] at h
    obtain ⟨_, rfl⟩ := h
    simp
  | case3 => contradiction
  | case4 done b rest' _ piece more hs ih =>
    have := ih h
    have := length_stringStep_le hs
    simp only [List.length_cons]
    omega

/-- What follows a mark is no longer than what followed its first byte. -/
theorem length_mark?_le {b : UInt8} {rest more : Bytes} {m : Mark}
    (h : mark? b rest = some (m, more)) : more.length ≤ rest.length := by
  have letters := Bytes.length_dropWhile_le isLetter rest
  have digits := Bytes.length_dropWhile_le isNumberPart rest
  have strings : ∀ s r, stringOnto [] rest = some (s, r) → r.length ≤ rest.length :=
    fun _ _ => length_stringOnto_le
  unfold mark? at h
  repeat' split at h
  all_goals
    simp only [Option.some.injEq, Prod.mk.injEq, Option.map_eq_some_iff, Prod.exists,
      reduceCtorEq] at h
  all_goals grind

/-- The marks of a text behind those in `done`, which are in reverse order. -/
def marksOnto (done : List Mark) : Bytes → Option (List Mark)
  | [] => some done.reverse
  | b :: rest =>
    if isSpace b then marksOnto done rest
    else
      match _h : mark? b rest with
      | none => none
      | some (m, more) => marksOnto (m :: done) more
termination_by s => s.length
decreasing_by
  · simp
  · have := length_mark?_le _h
    simp only [List.length_cons]
    omega

/-! ## Values -/

/-- An array or object that is still open, with its contents in reverse order. -/
inductive Frame where
  | array (items : List Json)
  | object (members : List (Bytes × Json)) (key : Bytes)

/-- What may come next. -/
inductive Wanted where
  | value
  /-- The first item of an array, or its end. -/
  | item
  /-- The first member of an object, or its end. -/
  | member
  | key
  | colon
  /-- A value has ended. -/
  | after
  deriving DecidableEq

/-- A half-read value. -/
structure Build where
  frames : List Frame
  wanted : Wanted
  /-- The value, once the outermost one has ended. -/
  result : Option Json

/-- How deep arrays and objects may be nested. -/
def maxDepth : Nat := 10000

namespace Build

/-- Nothing has been read. -/
def start : Build := ⟨[], .value, none⟩

/-- Puts a value in its place. -/
def put (b : Build) (j : Json) : Build :=
  match b.frames with
  | [] => { b with wanted := .after, result := some j }
  | .array items :: frames => { b with frames := .array (j :: items) :: frames, wanted := .after }
  | .object members key :: frames =>
    { b with frames := .object ((key, j) :: members) [] :: frames, wanted := .after }

/-- Opens an array or object. -/
def openFrame (b : Build) (depth : Nat) (f : Frame) (wanted : Wanted) : Option (Build × Nat) :=
  if depth < maxDepth then some ({ b with frames := f :: b.frames, wanted }, depth + 1) else none

/-- Ends the innermost array or object. -/
def closeFrame (b : Build) (depth : Nat) : Option (Build × Nat) :=
  match b.frames with
  | [] => none
  | .array items :: frames =>
    some (put { b with frames } (.array items.reverse), depth - 1)
  | .object members _ :: frames =>
    some (put { b with frames } (.object members.reverse), depth - 1)

/-- Takes a mark. -/
def step (b : Build) (depth : Nat) (m : Mark) : Option (Build × Nat) :=
  match b.wanted, m with
  | .value, .leaf j => some (b.put j, depth)
  | .item, .leaf j => some (b.put j, depth)
  | .value, .openArray => b.openFrame depth (.array []) .item
  | .item, .openArray => b.openFrame depth (.array []) .item
  | .value, .openObject => b.openFrame depth (.object [] []) .member
  | .item, .openObject => b.openFrame depth (.object [] []) .member
  | .item, .closeArray => b.closeFrame depth
  | .member, .closeObject => b.closeFrame depth
  | .member, .leaf (.string key) => withKey key
  | .key, .leaf (.string key) => withKey key
  | .colon, .colon => some ({ b with wanted := .value }, depth)
  | .after, .comma =>
    match b.frames with
    | .array _ :: _ => some ({ b with wanted := .value }, depth)
    | .object _ _ :: _ => some ({ b with wanted := .key }, depth)
    | [] => none
  | .after, .closeArray =>
    match b.frames with
    | .array _ :: _ => b.closeFrame depth
    | _ => none
  | .after, .closeObject =>
    match b.frames with
    | .object _ _ :: _ => b.closeFrame depth
    | _ => none
  | _, _ => none
where
  /-- Takes the key of a member. -/
  withKey (key : Bytes) : Option (Build × Nat) :=
    match b.frames with
    | .object members _ :: frames =>
      some ({ b with frames := .object members key :: frames, wanted := .colon }, depth)
    | _ => none

/-- Takes marks to their end. -/
def run (b : Build) (depth : Nat) : List Mark → Option Json
  | [] => if b.frames.isEmpty then b.result else none
  | m :: rest =>
    match b.step depth m with
    | none => none
    | some (b, depth) => run b depth rest

end Build

/-- The value that a text stands for, if it is JSON. -/
def read (s : Bytes) : Option Json := do
  let marks ← marksOnto [] s
  Build.start.run 0 marks

end Reckoner.Json
