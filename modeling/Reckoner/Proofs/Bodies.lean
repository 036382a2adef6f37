import Mathlib.Data.List.Forall2
import Reckoner.Api
import Reckoner.Proofs.Validity

/-!
# Reckoner.Proofs.Bodies — sources in the bodies of requests

A character of a JSON string may be spelled as it is, by a short escape, by a numeric escape or by
two of them (`Spells`). The reader takes every spelling for its character (`stringOnto_spells`), so
a body whose only member spells a source is read as that source (`jsonSource?_bodyOf_spells`).

No spelling is longer than six times its character (`Spells.length_le`). Bodies may be as long as
that, so every source that is short enough fits: `length_bodyOf_spells_le`.
-/

namespace Reckoner

namespace Json

/-! ## Spellings of a character -/

/-- `Spells c text`: in a JSON string the text stands for the character. -/
inductive Spells : Char → Bytes → Prop
  | raw {c : Char} (hc : 0x20 ≤ c.toNat) (hquote : c.toNat ≠ 34) (hescape : c.toNat ≠ 92) :
      Spells c (Utf8.encode c)
  | short {letter b : UInt8} (h : shortEscape? letter = some b) :
      Spells (Char.ofNat b.toNat) [92, letter]
  | unit {w x y z : UInt8} {n : Nat} (h : unit? w x y z = some n) (hn : n.isValidChar) :
      Spells (Char.ofNat n) [92, byte 'u', w, x, y, z]
  | pair {w x y z w' x' y' z' : UInt8} {high low : Nat} (hhigh : unit? w x y z = some high)
      (hlow : unit? w' x' y' z' = some low) (h : isHighSurrogate high = true)
      (h' : isLowSurrogate low = true) :
      Spells (pairedUnits high low) [92, byte 'u', w, x, y, z, 92, byte 'u', w', x', y', z']

/-- What a short escape stands for is an ASCII character. -/
theorem encode_of_shortEscape? {letter b : UInt8} (h : shortEscape? letter = some b) :
    Utf8.encode (Char.ofNat b.toNat) = [b] := by
  have hb : b.toNat < 0x80 := by
    unfold shortEscape? at h
    repeat' split at h
    all_goals cases h
    all_goals decide
  exact (Utf8.Form.one hb (Utf8.toNat_ofNat (Or.inl (by omega)))).encode_eq

/-- A pair of halves is a character that no single unit stands for. -/
theorem le_toNat_pairedUnits {high low : Nat} (h : isHighSurrogate high = true)
    (h' : isLowSurrogate low = true) : 0x10000 ≤ (pairedUnits high low).toNat := by
  simp only [isHighSurrogate, isLowSurrogate, Bool.and_eq_true, decide_eq_true_eq] at h h'
  have hvalid : (0x10000 + (high - 0xD800) * 0x400 + (low - 0xDC00)).isValidChar := by
    unfold Nat.isValidChar
    omega
  rw [pairedUnits, Utf8.toNat_ofNat hvalid]
  omega

/-- A spelling is at most six times as long as its character. -/
theorem Spells.length_le {c : Char} {text : Bytes} (h : Spells c text) :
    text.length ≤ 6 * (Utf8.encode c).length := by
  cases h with
  | raw => omega
  | short h =>
    rw [encode_of_shortEscape? h]
    simp
  | unit => exact Nat.mul_le_mul_left 6 (Utf8.one_le_length_encode _)
  | pair _ _ h h' =>
    have hge := le_toNat_pairedUnits h h'
    exact Nat.mul_le_mul_left 6 (Utf8.two_le_length_encode (by omega))

/-! ## Reading a string -/

theorem stringOnto_quote (done rest : Bytes) :
    stringOnto done (Bytes.quoteMark :: rest) = some (done.reverse, rest) := by
  rw [stringOnto, if_pos rfl]

theorem stringOnto_step {b : UInt8} {rest piece more : Bytes} (hb : b ≠ Bytes.quoteMark)
    (h : stringStep b rest = some (piece, more)) (done : Bytes) :
    stringOnto done (b :: rest) = stringOnto (piece.reverse ++ done) more := by
  rw [stringOnto, if_neg hb]
  split
  · next hnone => cases h.symm.trans hnone
  · next piece' more' hsome =>
    cases h.symm.trans hsome
    rfl

/-- Does a byte stand for itself in a string? -/
def IsPlain (b : UInt8) : Prop := 32 ≤ b.toNat ∧ b.toNat ≠ 34 ∧ b.toNat ≠ 92

instance (b : UInt8) : Decidable (IsPlain b) := inferInstanceAs (Decidable (_ ∧ _ ∧ _))

/-- A text of such bytes. -/
def Plain (text : Bytes) : Prop := ∀ b ∈ text, IsPlain b

instance (text : Bytes) : Decidable (Plain text) := List.decidableBAll IsPlain text

theorem stringOnto_plain {text : Bytes} (h : Plain text) (done rest : Bytes) :
    stringOnto done (text ++ rest) = stringOnto (text.reverse ++ done) rest := by
  induction text generalizing done with
  | nil => rfl
  | cons b text ih =>
    obtain ⟨⟨hb, hquote, hescape⟩, htext⟩ := List.forall_mem_cons.1 h
    have hstep : stringStep b (text ++ rest) = some ([b], text ++ rest) := by
      have hne : b ≠ 92 := fun heq => hescape (by rw [heq]; rfl)
      have hge : ¬ b < 32 := by
        rw [UInt8.lt_iff_toNat_lt]
        exact Nat.not_lt.2 hb
      unfold stringStep
      rw [if_neg hne, if_neg hge]
    have hne : b ≠ Bytes.quoteMark := fun heq => hquote (by rw [heq]; rfl)
    rw [List.cons_append, stringOnto_step hne hstep, ih htext]
    simp

/-- The bytes of a character that may stand as it is. -/
theorem plain_encode {c : Char} (hc : 0x20 ≤ c.toNat) (hquote : c.toNat ≠ 34)
    (hescape : c.toNat ≠ 92) : Plain (Utf8.encode c) := by
  have hform := Utf8.form_encode c
  have hhigh : ∀ {b : UInt8}, 0x80 ≤ b.toNat → IsPlain b := by
    intro b hb
    unfold IsPlain
    omega
  generalize Utf8.encode c = text at hform
  have htail : ∀ b ∈ text.tail, IsPlain b := by
    rcases text with _ | ⟨b, tail⟩
    · simp
    · exact fun x hx => hhigh (hform.tail_ge x hx)
  cases hform with
  | one lead point => exact List.forall_mem_singleton.2 ⟨by omega, by omega, by omega⟩
  | two lead => exact List.forall_mem_cons.2 ⟨hhigh (by omega), htail⟩
  | three lead => exact List.forall_mem_cons.2 ⟨hhigh (by omega), htail⟩
  | four lead => exact List.forall_mem_cons.2 ⟨hhigh (by omega), htail⟩

theorem unitAt?_of_unit {w x y z : UInt8} {n : Nat} (h : unit? w x y z = some n) (rest : Bytes) :
    unitAt? (92 :: byte 'u' :: w :: x :: y :: z :: rest) = some (n, rest) := by
  simp [unitAt?, h]

/-- A unit that is a character is no half of a pair. -/
theorem not_surrogate {n : Nat} (h : n.isValidChar) :
    isHighSurrogate n = false ∧ isLowSurrogate n = false := by
  unfold Nat.isValidChar at h
  simp only [isHighSurrogate, isLowSurrogate, Bool.and_eq_false_iff, decide_eq_false_iff_not]
  omega

/-- **Each spelling is read as its character.** -/
theorem Spells.stringOnto_eq {c : Char} {text : Bytes} (h : Spells c text) (done rest : Bytes) :
    stringOnto done (text ++ rest) = stringOnto ((Utf8.encode c).reverse ++ done) rest := by
  have hne : (92 : UInt8) ≠ Bytes.quoteMark := by decide
  cases h with
  | raw hc hquote hescape => exact stringOnto_plain (plain_encode hc hquote hescape) _ _
  | @short letter b h =>
    have hletter : letter ≠ byte 'u' := by
      rintro rfl
      cases h
    have hunit : unitAt? (92 :: letter :: rest) = none := by
      unfold unitAt?
      split
      · next heq =>
        cases heq
        rw [if_neg (by simp [hletter])]
      · rfl
    have hstep : stringStep 92 (letter :: rest) = some ([b], rest) := by
      rw [stringStep, if_pos rfl, hunit]
      simp only [h, Option.map_some]
    rw [encode_of_shortEscape? h]
    exact stringOnto_step hne hstep done
  | @unit w x y z n h hn =>
    obtain ⟨hhigh, hlow⟩ := not_surrogate hn
    have hlone : loneUnit n = Char.ofNat n := by
      rw [loneUnit, hhigh, hlow]
      rfl
    have hstep : stringStep 92 (byte 'u' :: w :: x :: y :: z :: rest)
        = some (Utf8.encode (Char.ofNat n), rest) := by
      rw [stringStep, if_pos rfl, unitAt?_of_unit h]
      simp only [hhigh, hlone]
      split <;> rfl
    exact stringOnto_step hne hstep done
  | @pair w x y z w' x' y' z' high low hhigh hlow h h' =>
    have hstep : stringStep 92
        (byte 'u' :: w :: x :: y :: z :: 92 :: byte 'u' :: w' :: x' :: y' :: z' :: rest)
        = some (Utf8.encode (pairedUnits high low), rest) := by
      rw [stringStep, if_pos rfl, unitAt?_of_unit hhigh]
      simp only
      rw [unitAt?_of_unit hlow]
      simp only [h, h', Bool.and_self, if_true]
    exact stringOnto_step hne hstep done

/-- **A spelled string is read as its characters.** -/
theorem stringOnto_spells {cs : List Char} {pieces : List Bytes}
    (h : List.Forall₂ Spells cs pieces) (done rest : Bytes) :
    stringOnto done (pieces.flatten ++ Bytes.quoteMark :: rest)
      = some (done.reverse ++ Utf8.encodeAll cs, rest) := by
  induction h generalizing done with
  | nil => rw [List.flatten_nil, List.nil_append, stringOnto_quote]; simp [Utf8.encodeAll]
  | @cons c text cs pieces hc _ ih =>
    rw [List.flatten_cons, List.append_assoc, hc.stringOnto_eq, ih]
    simp [Utf8.encodeAll]

/-! ## Writing a character -/

theorem hexDigit?_hexDigit {n : Nat} (h : n < 16) : hexDigit? (Text.hexDigit n) = some n := by
  have hall : ∀ n < 16, hexDigit? (Text.hexDigit n) = some n := by decide
  exact hall n h

/-- Four digits are read as the number that they were written from. -/
theorem unit?_hex {n : Nat} (h : n < 0x10000) :
    unit? (Text.hexDigit (n / 16 / 16 / 16 % 16)) (Text.hexDigit (n / 16 / 16 % 16))
      (Text.hexDigit (n / 16 % 16)) (Text.hexDigit (n % 16)) = some n := by
  unfold unit?
  rw [hexDigit?_hexDigit (by omega), hexDigit?_hexDigit (by omega), hexDigit?_hexDigit (by omega),
    hexDigit?_hexDigit (by omega)]
  show some _ = some n
  congr 1
  omega

/-- What is written for a character spells it. -/
theorem spells_escaped (c : Char) : Spells c (escaped c) := by
  unfold escaped
  split
  · exact .short (b := 34) (by decide)
  · exact .short (b := 92) (by decide)
  · exact .short (b := 8) (by decide)
  · exact .short (b := 12) (by decide)
  · exact .short (b := 10) (by decide)
  · exact .short (b := 13) (by decide)
  · exact .short (b := 9) (by decide)
  next hquote hescape _ _ _ _ _ =>
    split
    · next hspecial =>
      have hsmall : c.toNat < 0x10000 := by
        rcases hspecial with h | rfl | rfl | rfl | h | h
        · omega
        · decide
        · decide
        · decide
        · omega
        · omega
      have hspells := Spells.unit (unit?_hex hsmall) c.valid
      rwa [Char.ofNat_toNat] at hspells
    · next hplain =>
      refine .raw (by omega) ?_ ?_
      · exact fun h => hquote (Char.toNat_inj.1 h)
      · exact fun h => hescape (Char.toNat_inj.1 h)

/-! ## Reading a body -/

theorem marksOnto_mark {b : UInt8} {rest more : Bytes} {m : Mark} (hb : isSpace b = false)
    (h : mark? b rest = some (m, more)) (done : List Mark) :
    marksOnto done (b :: rest) = marksOnto (m :: done) more := by
  rw [marksOnto, if_neg (by simp [hb])]
  split
  · next hnone => cases h.symm.trans hnone
  · next m' more' hsome =>
    cases h.symm.trans hsome
    rfl

theorem mark?_string {rest s more : Bytes} (h : stringOnto [] rest = some (s, more)) :
    mark? Bytes.quoteMark rest = some (.leaf (.string (mended s)), more) := by
  have hnone : punctuation? Bytes.quoteMark = none := rfl
  rw [mark?, hnone]
  simp only [if_true, h, Option.map_some]

theorem mark?_punctuation {b : UInt8} {m : Mark} (h : punctuation? b = some m) (rest : Bytes) :
    mark? b rest = some (m, rest) := by
  rw [mark?, h]

end Json

namespace Api

open Json (Spells)

/-- The body whose only member is a source, with this text between the quotes. -/
def bodyOf (text : Bytes) : Bytes := utf8 "\x7b\"source\":\"" ++ (text ++ utf8 "\"\x7d")

/-- A body is read as the text between its quotes is. -/
theorem read_bodyOf {text raw : Bytes}
    (h : Json.stringOnto [] (text ++ utf8 "\"\x7d") = some (raw, utf8 "\x7d")) :
    Json.read (bodyOf text) = some (.object [(utf8 "source", .string (Json.mended raw))]) := by
  let opening := utf8 "\":\"" ++ (text ++ utf8 "\"\x7d")
  have hkey : Json.stringOnto [] (utf8 "source" ++ opening)
      = some (utf8 "source", opening.drop 1) := by
    rw [Json.stringOnto_plain (by decide)]
    exact Json.stringOnto_quote _ _
  have hmarks : Json.marksOnto [] (bodyOf text)
      = some [.openObject, .leaf (.string (utf8 "source")), .colon,
          .leaf (.string (Json.mended raw)), .closeObject] := by
    show Json.marksOnto [] (byte '\x7b' :: Bytes.quoteMark :: (utf8 "source" ++ opening)) = _
    rw [Json.marksOnto_mark rfl (Json.mark?_punctuation rfl _),
      Json.marksOnto_mark rfl (Json.mark?_string hkey)]
    show Json.marksOnto _ (byte ':' :: Bytes.quoteMark :: (text ++ utf8 "\"\x7d")) = _
    rw [Json.marksOnto_mark rfl (Json.mark?_punctuation rfl _),
      Json.marksOnto_mark rfl (Json.mark?_string h)]
    show Json.marksOnto _ [byte '\x7d'] = _
    rw [Json.marksOnto_mark rfl (Json.mark?_punctuation rfl _), Json.marksOnto]
    have hsource : Json.mended (utf8 "source") = utf8 "source" :=
      Utf8.encodeAll_chars (Utf8.Ascii.valid (by decide))
    rw [hsource]
    rfl
  rw [Json.read, hmarks]
  rfl

/-- A text that spells characters is read as these. -/
theorem read_bodyOf_spells {cs : List Char} {pieces : List Bytes}
    (h : List.Forall₂ Spells cs pieces) :
    Json.read (bodyOf pieces.flatten)
      = some (.object [(utf8 "source", .string (Utf8.encodeAll cs))]) := by
  have hread : Json.read (bodyOf pieces.flatten)
      = some (.object [(utf8 "source", .string (Json.mended (Utf8.encodeAll cs)))]) :=
    read_bodyOf (Json.stringOnto_spells h [] _)
  rwa [Json.mended, Utf8.encodeAll_chars (Utf8.valid_encodeAll cs)] at hread

/-- A body with one member, the source, has that source. -/
theorem jsonSource?_of_read {body source : Bytes}
    (h : Json.read body = some (.object [(utf8 "source", .string source)])) :
    jsonSource? body = some source := by
  have hkey : isSourceKey (utf8 "source") = true := by with_unfolding_all rfl
  rw [jsonSource?, h]
  simp only [sourceAmong, hkey, if_true]

/-- **A body that spells a source is read as that source.** -/
theorem jsonSource?_bodyOf_spells {cs : List Char} {pieces : List Bytes}
    (h : List.Forall₂ Spells cs pieces) :
    jsonSource? (bodyOf pieces.flatten) = some (Utf8.encodeAll cs) :=
  jsonSource?_of_read (read_bodyOf_spells h)

theorem length_bodyOf (text : Bytes) : (bodyOf text).length = text.length + 13 := by
  have hfixed : (utf8 "\x7b\"source\":\"").length = 11 ∧ (utf8 "\"\x7d").length = 2 := by decide
  rw [bodyOf, List.length_append, List.length_append]
  omega

theorem length_bodyOf_le {text : Bytes} {size : Nat} (htext : text.length ≤ 6 * size)
    (hsize : size ≤ maxSourceSize) : (bodyOf text).length ≤ maxBodySize := by
  rw [length_bodyOf]
  unfold maxBodySize
  omega

/-- **A source that is short enough fits into a body**, however it is spelled. -/
theorem length_bodyOf_spells_le {cs : List Char} {pieces : List Bytes}
    (h : List.Forall₂ Spells cs pieces) (hsize : (Utf8.encodeAll cs).length ≤ maxSourceSize) :
    (bodyOf pieces.flatten).length ≤ maxBodySize := by
  have hpieces : pieces.flatten.length ≤ 6 * (Utf8.encodeAll cs).length := by
    clear hsize
    induction h with
    | nil => simp
    | @cons c text cs pieces hc _ ih =>
      have hlength := hc.length_le
      simp only [List.flatten_cons, Utf8.encodeAll, List.flatMap_cons, List.length_append] at ih ⊢
      omega
  exact length_bodyOf_le hpieces hsize

end Api

end Reckoner
