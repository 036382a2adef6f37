import Reckoner.Text.Utf8

/-!
# Reckoner.Proofs.Utf8 — the reader of runes is the inverse of the encoder

`Utf8.next` cuts one rune off a text by looking at the ranges of its first bytes; `Utf8.encode`
writes a character by dividing its code point. Both are held against the table of well-formed byte
sequences (`Form`), one rule for each number of bytes: the encoder writes the form of a character
(`form_encode`) and the character has no other (`Form.encode_eq`), the reader takes a form for its
character (`next_of_form`) and takes nothing else for one (`form_of_next`).

So the character that is read is the one whose form the text starts with, and U+FFFD where the text
starts with the form of none: `startsWith_iff`.
-/

namespace Reckoner.Utf8

/-- A code point that is a scalar value is the code point of its character. -/
theorem toNat_ofNat {n : Nat} (h : n.isValidChar) : (Char.ofNat n).toNat = n := by
  unfold Char.ofNat
  rw [dif_pos h]
  rfl

/-- The code points of characters: no surrogates, nothing above U+10FFFF. -/
theorem toNat_valid (c : Char) : c.toNat < 0xD800 ∨ 0xDFFF < c.toNat ∧ c.toNat < 0x110000 :=
  c.valid

/-! ### The well-formed byte sequences -/

/-- The code point of a two-byte form. -/
def point2 (b₀ b₁ : UInt8) : Nat := b₀.toNat % 32 * 64 + tailBits b₁

/-- The code point of a three-byte form. -/
def point3 (b₀ b₁ b₂ : UInt8) : Nat := b₀.toNat % 16 * 4096 + tailBits b₁ * 64 + tailBits b₂

/-- The code point of a four-byte form. -/
def point4 (b₀ b₁ b₂ b₃ : UInt8) : Nat :=
  b₀.toNat % 8 * 262144 + tailBits b₁ * 4096 + tailBits b₂ * 64 + tailBits b₃

/-- The form of a character: a lead byte and its continuation bytes, whose payloads make up the
code point. The longer forms start where the shorter ones end. -/
inductive Form (c : Char) : Bytes → Prop
  | one {b₀ : UInt8} (lead : b₀.toNat < 0x80) (point : c.toNat = b₀.toNat) : Form c [b₀]
  | two {b₀ b₁ : UInt8} (lead : 0xC2 ≤ b₀.toNat ∧ b₀.toNat ≤ 0xDF) (tail : isTail b₁ = true)
      (point : c.toNat = point2 b₀ b₁) : Form c [b₀, b₁]
  | three {b₀ b₁ b₂ : UInt8} (lead : 0xE0 ≤ b₀.toNat ∧ b₀.toNat ≤ 0xEF)
      (tail₁ : isTail b₁ = true) (tail₂ : isTail b₂ = true)
      (point : c.toNat = point3 b₀ b₁ b₂) (least : 0x800 ≤ c.toNat) : Form c [b₀, b₁, b₂]
  | four {b₀ b₁ b₂ b₃ : UInt8} (lead : 0xF0 ≤ b₀.toNat ∧ b₀.toNat ≤ 0xF4)
      (tail₁ : isTail b₁ = true) (tail₂ : isTail b₂ = true) (tail₃ : isTail b₃ = true)
      (point : c.toNat = point4 b₀ b₁ b₂ b₃) (least : 0x10000 ≤ c.toNat) :
      Form c [b₀, b₁, b₂, b₃]

theorem isTail_iff (b : UInt8) : isTail b = true ↔ 0x80 ≤ b.toNat ∧ b.toNat ≤ 0xBF := by
  simp [isTail, UInt8.le_iff_toNat_le]

theorem tailBits_lt (b : UInt8) : tailBits b < 64 := Nat.mod_lt _ (by decide)

/-- A byte is a continuation byte with the payload it was made from. -/
theorem tail_ofNat (n : Nat) :
    isTail (UInt8.ofNat (n % 64 + 128)) = true ∧ tailBits (UInt8.ofNat (n % 64 + 128)) = n % 64 := by
  rw [isTail_iff]
  unfold tailBits
  rw [UInt8.toNat_ofNat']
  omega

/-- A continuation byte is made from its payload. -/
theorem ofNat_tail {b : UInt8} {n : Nat} (h : isTail b = true) (hn : n % 64 = tailBits b) :
    UInt8.ofNat (n % 64 + 128) = b := by
  rw [isTail_iff] at h
  rw [hn, ← UInt8.toNat_inj, UInt8.toNat_ofNat']
  unfold tailBits
  omega

/-- The byte that is made from a mark and a payload below `bits`. -/
theorem lead_ofNat {bits mark n : Nat} (h : n < bits) (hmark : mark + bits ≤ 256) :
    (UInt8.ofNat (n % bits + mark)).toNat = mark + n := by
  rw [UInt8.toNat_ofNat', Nat.mod_eq_of_lt h]
  omega

/-- The encoder, on code points. -/
theorem encode_eq (c : Char) :
    encode c =
      if c.toNat ≤ 0x7F then [UInt8.ofNat c.toNat]
      else if c.toNat ≤ 0x7FF then
        [UInt8.ofNat (c.toNat / 64 % 32 + 0xC0), UInt8.ofNat (c.toNat % 64 + 0x80)]
      else if c.toNat ≤ 0xFFFF then
        [UInt8.ofNat (c.toNat / 4096 % 16 + 0xE0), UInt8.ofNat (c.toNat / 64 % 64 + 0x80),
          UInt8.ofNat (c.toNat % 64 + 0x80)]
      else
        [UInt8.ofNat (c.toNat / 262144 % 8 + 0xF0), UInt8.ofNat (c.toNat / 4096 % 64 + 0x80),
          UInt8.ofNat (c.toNat / 64 % 64 + 0x80), UInt8.ofNat (c.toNat % 64 + 0x80)] :=
  rfl

/-- The encoder writes the form of a character. -/
theorem form_encode (c : Char) : Form c (encode c) := by
  have hvalid := toNat_valid c
  rw [encode_eq]
  -- beyond each bound one more continuation byte is taken off, and the lead byte holds the rest
  by_cases h1 : c.toNat ≤ 0x7F
  · have hlead : (UInt8.ofNat c.toNat).toNat = c.toNat := by rw [UInt8.toNat_ofNat']; omega
    rw [if_pos h1]
    exact .one (by omega) hlead.symm
  rw [if_neg h1]
  obtain ⟨htail₀, hbits₀⟩ := tail_ofNat c.toNat
  by_cases h2 : c.toNat ≤ 0x7FF
  · have hlead := lead_ofNat (show c.toNat / 64 < 32 by omega) (show 0xC0 + 32 ≤ 256 by decide)
    rw [if_pos h2]
    refine .two (by omega) htail₀ ?_
    unfold point2
    omega
  rw [if_neg h2]
  obtain ⟨htail₁, hbits₁⟩ := tail_ofNat (c.toNat / 64)
  by_cases h3 : c.toNat ≤ 0xFFFF
  · have hlead := lead_ofNat (show c.toNat / 4096 < 16 by omega) (show 0xE0 + 16 ≤ 256 by decide)
    rw [if_pos h3]
    refine .three (by omega) htail₁ htail₀ ?_ (by omega)
    unfold point3
    omega
  rw [if_neg h3]
  obtain ⟨htail₂, hbits₂⟩ := tail_ofNat (c.toNat / 4096)
  have hlead := lead_ofNat (show c.toNat / 262144 < 8 by omega) (show 0xF0 + 8 ≤ 256 by decide)
  refine .four (by omega) htail₂ htail₁ htail₀ ?_ (by omega)
  unfold point4
  omega

theorem one_le_length_encode (c : Char) : 1 ≤ (encode c).length := by
  have hform := form_encode c
  generalize encode c = text at hform
  cases hform <;> simp

theorem two_le_length_encode {c : Char} (h : 0x80 ≤ c.toNat) : 2 ≤ (encode c).length := by
  have hform := form_encode c
  generalize encode c = text at hform
  cases hform with
  | one lead point => omega
  | _ => simp

/-- A lead byte is made from its mark and what it adds to it. -/
theorem ofNat_lead (b : UInt8) {bits mark n : Nat} (h : b.toNat = mark + n) (hn : n < bits) :
    UInt8.ofNat (n % bits + mark) = b := by
  have hb := b.toNat_lt
  rw [← UInt8.toNat_inj, UInt8.toNat_ofNat', Nat.mod_eq_of_lt hn]
  omega

/-- A character has one form only. -/
theorem Form.encode_eq {c : Char} {s : Bytes} (h : Form c s) : encode c = s := by
  have hvalid := toNat_valid c
  rw [Utf8.encode_eq]
  cases h with
  | one lead point =>
    rw [if_pos (by omega), point, UInt8.ofNat_toNat]
  | @two b₀ b₁ lead tail point =>
    have hbits := tailBits_lt b₁
    unfold point2 at point
    rw [if_neg (by omega), if_pos (by omega), ofNat_lead b₀ (by omega) (by omega),
      ofNat_tail tail (by omega)]
  | @three b₀ b₁ b₂ lead tail₁ tail₂ point least =>
    have hbits₁ := tailBits_lt b₁
    have hbits₂ := tailBits_lt b₂
    unfold point3 at point
    rw [if_neg (by omega), if_neg (by omega), if_pos (by omega), ofNat_lead b₀ (by omega) (by omega),
      ofNat_tail tail₁ (by omega), ofNat_tail tail₂ (by omega)]
  | @four b₀ b₁ b₂ b₃ lead tail₁ tail₂ tail₃ point least =>
    have hbits₁ := tailBits_lt b₁
    have hbits₂ := tailBits_lt b₂
    have hbits₃ := tailBits_lt b₃
    unfold point4 at point
    rw [if_neg (by omega), if_neg (by omega), if_neg (by omega), ofNat_lead b₀ (by omega) (by omega),
      ofNat_tail tail₁ (by omega), ofNat_tail tail₂ (by omega), ofNat_tail tail₃ (by omega)]

/-- All bytes of a form but the first are no ASCII characters. -/
theorem Form.tail_ge {c : Char} {b : UInt8} {tail : Bytes} (h : Form c (b :: tail)) :
    ∀ x ∈ tail, 0x80 ≤ x.toNat := by
  cases h with
  | one => simp
  | two _ tail =>
    intro x hx
    rw [List.mem_singleton.1 hx]
    exact ((isTail_iff _).1 tail).1
  | three _ tail₁ tail₂ =>
    intro x hx
    simp only [List.mem_cons, List.not_mem_nil, or_false] at hx
    rcases hx with rfl | rfl
    · exact ((isTail_iff _).1 tail₁).1
    · exact ((isTail_iff _).1 tail₂).1
  | four _ tail₁ tail₂ tail₃ =>
    intro x hx
    simp only [List.mem_cons, List.not_mem_nil, or_false] at hx
    rcases hx with rfl | rfl | rfl
    · exact ((isTail_iff _).1 tail₁).1
    · exact ((isTail_iff _).1 tail₂).1
    · exact ((isTail_iff _).1 tail₃).1

/-! ### What the reader takes for a form -/

/-- The bounds on the second byte of a three-byte form, by the code point that it gives: they rule
out overlong forms and surrogates, and nothing else. -/
theorem bounds3_iff {b₀ : UInt8} (b₁ b₂ : UInt8) (lead : 0xE0 ≤ b₀.toNat ∧ b₀.toNat ≤ 0xEF) :
    ((bounds3 b₀).1 ≤ b₁ ∧ b₁ ≤ (bounds3 b₀).2) ↔
      isTail b₁ = true ∧ 0x800 ≤ point3 b₀ b₁ b₂ ∧ (point3 b₀ b₁ b₂).isValidChar := by
  rw [isTail_iff]
  have hb₁ := b₁.toNat_lt
  unfold bounds3 point3 tailBits Nat.isValidChar
  simp only [← UInt8.toNat_inj]
  split
  · next h =>
    simp only [UInt8.le_iff_toNat_le, UInt8.reduceToNat] at h ⊢
    omega
  · next h =>
    split
    · next h' =>
      simp only [UInt8.le_iff_toNat_le, UInt8.reduceToNat] at h h' ⊢
      omega
    · next h' =>
      simp only [UInt8.le_iff_toNat_le, UInt8.reduceToNat] at h h' ⊢
      omega

/-- The bounds on the second byte of a four-byte form, by the code point that it gives: they rule
out overlong forms and what lies above U+10FFFF. -/
theorem bounds4_iff {b₀ : UInt8} (b₁ b₂ b₃ : UInt8)
    (lead : 0xF0 ≤ b₀.toNat ∧ b₀.toNat ≤ 0xF4) :
    ((bounds4 b₀).1 ≤ b₁ ∧ b₁ ≤ (bounds4 b₀).2) ↔
      isTail b₁ = true ∧ 0x10000 ≤ point4 b₀ b₁ b₂ b₃ ∧
        (point4 b₀ b₁ b₂ b₃).isValidChar := by
  rw [isTail_iff]
  have hb₁ := b₁.toNat_lt
  unfold bounds4 point4 tailBits Nat.isValidChar
  simp only [← UInt8.toNat_inj]
  split
  · next h =>
    simp only [UInt8.le_iff_toNat_le, UInt8.reduceToNat] at h ⊢
    omega
  · next h =>
    split
    · next h' =>
      simp only [UInt8.le_iff_toNat_le, UInt8.reduceToNat] at h h' ⊢
      omega
    · next h' =>
      simp only [UInt8.le_iff_toNat_le, UInt8.reduceToNat] at h h' ⊢
      omega

/-- **A form is read as its character.** -/
theorem next_of_form {c : Char} {b : UInt8} {more : Bytes} (h : Form c (b :: more))
    (rest : Bytes) : next b (more ++ rest) = (.scalar c, rest) := by
  unfold next
  simp only [UInt8.lt_iff_toNat_lt, UInt8.le_iff_toNat_le, UInt8.reduceToNat, Bool.and_eq_true,
    decide_eq_true_eq]
  cases h with
  | one lead point =>
    rw [if_pos lead, ← point, Char.ofNat_toNat]
    rfl
  | @two b₀ b₁ lead tail point =>
    rw [if_neg (by omega), if_pos lead]
    show (if isTail b₁ = true then (Rune.scalar (Char.ofNat (point2 b b₁)), rest) else _) = _
    rw [if_pos tail, ← point, Char.ofNat_toNat]
  | @three b₀ b₁ b₂ lead tail₁ tail₂ point least =>
    have hbounds := (bounds3_iff b₁ b₂ lead).2 ⟨tail₁, point ▸ least, point ▸ c.valid⟩
    rw [UInt8.le_iff_toNat_le, UInt8.le_iff_toNat_le] at hbounds
    rw [if_neg (by omega), if_neg (by omega), if_pos lead]
    show (if _ then (Rune.scalar (Char.ofNat (point3 b b₁ b₂)), rest) else _) = _
    rw [if_pos ⟨hbounds, tail₂⟩, ← point, Char.ofNat_toNat]
  | @four b₀ b₁ b₂ b₃ lead tail₁ tail₂ tail₃ point least =>
    have hbounds := (bounds4_iff b₁ b₂ b₃ lead).2 ⟨tail₁, point ▸ least, point ▸ c.valid⟩
    rw [UInt8.le_iff_toNat_le, UInt8.le_iff_toNat_le] at hbounds
    rw [if_neg (by omega), if_neg (by omega), if_neg (by omega), if_pos lead]
    show (if _ then (Rune.scalar (Char.ofNat (point4 b b₁ b₂ b₃)), rest) else _) = _
    rw [if_pos ⟨⟨hbounds, tail₂⟩, tail₃⟩, ← point, Char.ofNat_toNat]

/-- What `next` cuts off: a form and the rest behind it, or one stray byte. -/
theorem form_of_next (b : UInt8) (rest : Bytes) :
    (∃ c more tail, next b rest = (.scalar c, more) ∧ rest = tail ++ more ∧ Form c (b :: tail)) ∨
      next b rest = (.stray b, rest) := by
  unfold next
  simp only [UInt8.lt_iff_toNat_lt, UInt8.le_iff_toNat_le, UInt8.reduceToNat, Bool.and_eq_true,
    decide_eq_true_eq]
  -- the range of `b` says how many bytes belong to the form; where one is missing, `b` is stray
  split
  · next h1 =>
    have hvalid : b.toNat.isValidChar := Or.inl (by omega)
    exact .inl ⟨_, _, [], rfl, rfl, .one h1 (toNat_ofNat hvalid)⟩
  split
  · next h1 h2 =>
    split
    · next b₁ more =>
      split
      · next tail =>
        have hvalid : (point2 b b₁).isValidChar := Or.inl (by
          have := tailBits_lt b₁
          unfold point2
          omega)
        exact .inl ⟨_, more, [b₁], rfl, rfl, .two h2 tail (toNat_ofNat hvalid)⟩
      · exact .inr rfl
    · exact .inr rfl
  split
  · next h1 h2 h3 =>
    split
    · next b₁ b₂ more =>
      split
      · next h =>
        rw [← UInt8.le_iff_toNat_le, ← UInt8.le_iff_toNat_le] at h
        obtain ⟨tail₁, least, hvalid⟩ := (bounds3_iff b₁ b₂ h3).1 h.1
        have hpoint := toNat_ofNat hvalid
        exact .inl ⟨_, more, [b₁, b₂], rfl, rfl,
          .three h3 tail₁ h.2 hpoint (hpoint.symm ▸ least)⟩
      · exact .inr rfl
    · exact .inr rfl
  split
  · next h1 h2 h3 h4 =>
    split
    · next b₁ b₂ b₃ more =>
      split
      · next h =>
        rw [← UInt8.le_iff_toNat_le, ← UInt8.le_iff_toNat_le] at h
        obtain ⟨tail₁, least, hvalid⟩ := (bounds4_iff b₁ b₂ b₃ h4).1 h.1.1
        have hpoint := toNat_ofNat hvalid
        exact .inl ⟨_, more, [b₁, b₂, b₃], rfl, rfl,
          .four h4 tail₁ h.1.2 h.2 hpoint (hpoint.symm ▸ least)⟩
      · exact .inr rfl
    · exact .inr rfl
  · exact .inr rfl

/-- The text starts with this character: with its form or, for U+FFFD, with the form of none. -/
def StartsWith (s : Bytes) (c : Char) : Prop :=
  encode c <+: s ∨ c = Rune.replacement ∧ ∀ d, ¬ encode d <+: s

/-- A text that starts with the form of a character is read as that character. -/
theorem char_next_of_encode {b : UInt8} {rest : Bytes} {c : Char} (h : encode c <+: b :: rest) :
    (next b rest).1 = .scalar c := by
  obtain ⟨more, hmore⟩ := h
  have hform := form_encode c
  cases hc : encode c with
  | nil =>
    rw [hc] at hform
    cases hform
  | cons b₀ tail =>
    rw [hc, List.cons_append] at hmore
    rw [hc] at hform
    obtain ⟨rfl, rfl⟩ := List.cons.inj hmore
    rw [next_of_form hform]

/-- **The character that is read is the one that the text starts with.** -/
theorem startsWith_iff (b : UInt8) (rest : Bytes) (c : Char) :
    StartsWith (b :: rest) c ↔ c = (next b rest).1.char := by
  constructor
  · rintro (h | ⟨rfl, hnone⟩)
    · rw [char_next_of_encode h]
      rfl
    · obtain ⟨d, more, tail, -, rfl, hform⟩ | hstray := form_of_next b rest
      · exact absurd ⟨more, by rw [hform.encode_eq]; rfl⟩ (hnone d)
      · rw [hstray]
        rfl
  · rintro rfl
    obtain ⟨d, more, tail, hnext, rfl, hform⟩ | hstray := form_of_next b rest
    · rw [hnext]
      exact .inl ⟨more, by rw [Rune.char, hform.encode_eq]; rfl⟩
    · refine .inr ⟨by rw [hstray]; rfl, fun d hd => ?_⟩
      have hscalar := char_next_of_encode hd
      rw [hstray] at hscalar
      cases hscalar

end Reckoner.Utf8
