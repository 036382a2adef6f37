import Reckoner.Text.Bytes

/-!
# Reckoner.Text.Utf8 — bytes as runes

A text is read as a sequence of runes. A rune is a Unicode scalar value in its shortest UTF-8
form, or one stray byte that starts no such form; so every byte string is the concatenation of its
runes, and it is valid UTF-8 exactly when none of them is stray.
-/

namespace Reckoner

/-- One step of reading a text as UTF-8. -/
inductive Rune where
  /-- A well-formed scalar value. -/
  | scalar (c : Char)
  /-- A byte that no well-formed sequence starts with here. -/
  | stray (b : UInt8)
  deriving DecidableEq, Repr

namespace Rune

/-- U+FFFD, which stands in for what cannot be read. -/
def replacement : Char := Char.ofNat 0xFFFD

/-- The bytes the rune was read from. -/
def bytes : Rune → Bytes
  | scalar c => String.utf8EncodeChar c
  | stray b => [b]

/-- The rune as a character; a stray byte counts as U+FFFD. -/
def char : Rune → Char
  | scalar c => c
  | stray _ => replacement

/-- Is the rune well formed? -/
def isScalar : Rune → Bool
  | scalar _ => true
  | stray _ => false

end Rune

namespace Utf8

/-- A continuation byte. -/
def isTail (b : UInt8) : Bool := 0x80 ≤ b && b ≤ 0xBF

/-- The payload of a continuation byte. -/
def tailBits (b : UInt8) : Nat := b.toNat % 64

/-- The bounds that the second byte of a three-byte form keeps after `b`: they rule out overlong
forms and surrogates. -/
def bounds3 (b : UInt8) : UInt8 × UInt8 :=
  if b = 0xE0 then (0xA0, 0xBF) else if b = 0xED then (0x80, 0x9F) else (0x80, 0xBF)

/-- The bounds that the second byte of a four-byte form keeps after `b`: they rule out overlong
forms and what lies above U+10FFFF. -/
def bounds4 (b : UInt8) : UInt8 × UInt8 :=
  if b = 0xF0 then (0x90, 0xBF) else if b = 0xF4 then (0x80, 0x8F) else (0x80, 0xBF)

/-- The rune that the text `b :: rest` starts with, and what follows it. -/
def next (b : UInt8) (rest : Bytes) : Rune × Bytes :=
  if b < 0x80 then (.scalar (Char.ofNat b.toNat), rest)
  else if 0xC2 ≤ b && b ≤ 0xDF then
    match rest with
    | c :: more =>
      if isTail c then (.scalar (Char.ofNat (b.toNat % 32 * 64 + tailBits c)), more)
      else (.stray b, rest)
    | [] => (.stray b, rest)
  else if 0xE0 ≤ b && b ≤ 0xEF then
    match rest with
    | c :: d :: more =>
      if (bounds3 b).1 ≤ c && c ≤ (bounds3 b).2 && isTail d then
        (.scalar (Char.ofNat (b.toNat % 16 * 4096 + tailBits c * 64 + tailBits d)), more)
      else (.stray b, rest)
    | _ => (.stray b, rest)
  else if 0xF0 ≤ b && b ≤ 0xF4 then
    match rest with
    | c :: d :: e :: more =>
      if (bounds4 b).1 ≤ c && c ≤ (bounds4 b).2 && isTail d && isTail e then
        (.scalar (Char.ofNat
          (b.toNat % 8 * 262144 + tailBits c * 4096 + tailBits d * 64 + tailBits e)), more)
      else (.stray b, rest)
    | _ => (.stray b, rest)
  else (.stray b, rest)

/-- Reading a rune uses up its first byte at least. -/
theorem length_next_le (b : UInt8) (rest : Bytes) : (next b rest).2.length ≤ rest.length := by
  unfold next
  split
  · simp
  · split
    · split
      · split <;> simp
      · simp
    · split
      · split
        · split
          · exact Nat.le_add_right _ 2
          · exact Nat.le_refl _
        · exact Nat.le_refl _
      · split
        · split
          · split
            · exact Nat.le_add_right _ 3
            · exact Nat.le_refl _
          · exact Nat.le_refl _
        · exact Nat.le_refl _

/-- The runes of `s` put in reverse order in front of `acc`. -/
def runesOnto (acc : List Rune) (s : Bytes) : List Rune :=
  match s with
  | [] => acc
  | b :: rest =>
    have := length_next_le b rest
    runesOnto ((next b rest).1 :: acc) (next b rest).2
termination_by s.length
decreasing_by simp; omega

/-- The runes of a text, in order. -/
def runes (s : Bytes) : List Rune := (runesOnto [] s).reverse

/-- Is the text valid UTF-8? -/
def valid (s : Bytes) : Bool := (runes s).all Rune.isScalar

/-- A character as UTF-8. -/
def encode (c : Char) : Bytes := String.utf8EncodeChar c

/-- The characters of a text, U+FFFD for each stray byte. -/
def chars (s : Bytes) : List Char := (runes s).map Rune.char

/-- Characters as UTF-8. -/
def encodeAll (cs : List Char) : Bytes := cs.flatMap encode

theorem runesOnto_append (acc : List Rune) (s : Bytes) :
    runesOnto acc s = runesOnto [] s ++ acc := by
  match s with
  | [] => simp [runesOnto]
  | b :: rest =>
    have h := length_next_le b rest
    rw [runesOnto, runesOnto_append, runesOnto, runesOnto_append [(next b rest).1]]
    simp
termination_by s.length
decreasing_by all_goals simp; omega

@[simp]
theorem runes_nil : runes [] = [] := by simp [runes, runesOnto]

/-- Runes are read from the front. -/
theorem runes_cons (b : UInt8) (rest : Bytes) :
    runes (b :: rest) = (next b rest).1 :: runes (next b rest).2 := by
  rw [runes, runesOnto, runesOnto_append]
  simp [runes]

end Utf8

end Reckoner
