import Reckoner.Text.Excerpt
import Reckoner.Proofs.Validity

/-!
# Reckoner.Proofs.Excerpts — texts are cut between characters

`Decodes` says how a text is read: the form of a character counts as one rune, and so does a byte
that no form starts with. Every text is read in exactly one way, which is what `Utf8.runes` computes
(`decodes_iff`), and its runes make up the text again (`Decodes.flatten`). So the first runes of a
text are written as the front of that text, as long as each of them is a character
(`Decodes.encodeAll_take`).

Main statement: `truncate_exact`.
-/

namespace Reckoner

namespace Utf8

/-! ## Reading a whole text -/

/-- `Decodes s runes`: from front to back the text is read as these runes. -/
inductive Decodes : Bytes → List Rune → Prop
  | nil : Decodes [] []
  | scalar {c : Char} {text rest : Bytes} {more : List Rune} (form : Form c text)
      (behind : Decodes rest more) : Decodes (text ++ rest) (.scalar c :: more)
  | stray {b : UInt8} {rest : Bytes} {more : List Rune}
      (formless : ∀ c text, Form c text → ¬ text <+: b :: rest) (behind : Decodes rest more) :
      Decodes (b :: rest) (.stray b :: more)

/-- A form in front of a text is read as its character. -/
theorem Form.runes_append {c : Char} {text : Bytes} (h : Form c text) (rest : Bytes) :
    runes (text ++ rest) = .scalar c :: runes rest := by
  rw [← h.encode_eq]
  exact runes_encode_append c rest

/-- A byte that no form starts with is read as a rune of its own. -/
theorem runes_stray {b : UInt8} {rest : Bytes}
    (h : ∀ c text, Form c text → ¬ text <+: b :: rest) :
    runes (b :: rest) = .stray b :: runes rest := by
  obtain ⟨c, more, tail, -, rfl, hform⟩ | hstray := form_of_next b rest
  · exact absurd ⟨more, rfl⟩ (h c (b :: tail) hform)
  · rw [runes_cons, hstray]

theorem Decodes.runes_eq {s : Bytes} {rs : List Rune} (h : Decodes s rs) : runes s = rs := by
  induction h with
  | nil => exact runes_nil
  | scalar form _ ih => rw [form.runes_append, ih]
  | stray formless _ ih => rw [runes_stray formless, ih]

/-- Every text can be read. -/
theorem decodes_runes (s : Bytes) : Decodes s (runes s) := by
  -- by the length of the text, of which a form or a byte is taken off
  induction hn : s.length using Nat.strongRecOn generalizing s with
  | ind n ih =>
    rcases s with _ | ⟨b, rest⟩
    · rw [runes_nil]
      exact .nil
    rw [List.length_cons] at hn
    by_cases h : ∀ c text, Form c text → ¬ text <+: b :: rest
    · rw [runes_stray h]
      exact .stray h (ih rest.length (by omega) rest rfl)
    · simp only [not_forall, not_not] at h
      obtain ⟨c, text, hform, more, hsplit⟩ := h
      have htext : 0 < text.length := by
        cases hform <;> simp
      have hlength : text.length + more.length = rest.length + 1 := by
        rw [← List.length_append, hsplit, List.length_cons]
      rw [← hsplit, hform.runes_append]
      exact .scalar hform (ih more.length (by omega) more rfl)

/-- **The reader of runes reads each text in the only way there is.** -/
theorem decodes_iff {s : Bytes} {rs : List Rune} : Decodes s rs ↔ rs = runes s := by
  constructor
  · exact fun h => h.runes_eq.symm
  · rintro rfl
    exact decodes_runes s

/-- The runes of a text make up the text. -/
theorem Decodes.flatten {s : Bytes} {rs : List Rune} (h : Decodes s rs) :
    rs.flatMap Rune.bytes = s := by
  induction h with
  | nil => rfl
  | @scalar c text rest more form _ ih =>
    have hc : (Rune.scalar c).bytes = text := form.encode_eq
    rw [List.flatMap_cons, hc, ih]
  | @stray b rest more _ _ ih =>
    rw [List.flatMap_cons, ih]
    rfl

/-- Characters that are written down are read again. -/
theorem decodes_encodeAll (cs : List Char) : Decodes (encodeAll cs) (cs.map .scalar) := by
  induction cs with
  | nil => exact .nil
  | cons c cs ih => exact .scalar (form_encode c) ih

theorem chars_encodeAll (cs : List Char) : chars (encodeAll cs) = cs := by
  rw [chars, (decodes_encodeAll cs).runes_eq, List.map_map]
  exact List.map_id cs

/-- What is written for runes that are characters is what they were read from. -/
theorem encodeAll_map_char {rs : List Rune} (h : ∀ r ∈ rs, r.isScalar = true) :
    encodeAll (rs.map Rune.char) = rs.flatMap Rune.bytes := by
  have hencode : ∀ r ∈ rs, encode r.char = r.bytes := by
    intro r hr
    have hscalar := h r hr
    cases r with
    | scalar c => rfl
    | stray b => cases hscalar
  rw [encodeAll, List.flatMap_map]
  exact List.flatMap_congr hencode

/-- **The first characters of a valid text are written as its front.** -/
theorem Decodes.encodeAll_take {s : Bytes} {rs : List Rune} (h : Decodes s rs)
    (hvalid : valid s = true) (n : Nat) : encodeAll ((rs.take n).map Rune.char) <+: s := by
  have hscalar : ∀ r ∈ rs, r.isScalar = true := by
    rw [← h.runes_eq]
    exact List.all_eq_true.1 hvalid
  have hfront : encodeAll ((rs.take n).map Rune.char) = (rs.take n).flatMap Rune.bytes :=
    encodeAll_map_char fun r hr => hscalar r (List.mem_of_mem_take hr)
  refine ⟨(rs.drop n).flatMap Rune.bytes, ?_⟩
  calc encodeAll ((rs.take n).map Rune.char) ++ (rs.drop n).flatMap Rune.bytes
      = (rs.take n ++ rs.drop n).flatMap Rune.bytes := by rw [hfront, List.flatMap_append]
    _ = s := by rw [List.take_append_drop, h.flatten]

end Utf8

/-! ## Cutting a text short -/

namespace Text

open Utf8

/-- The ellipsis does not make a text invalid. -/
theorem valid_ellipsis (cs : List Char) : valid (encodeAll cs ++ utf8 "...") = true :=
  valid_append (valid_encodeAll cs) (Ascii.valid (by decide))

/-- **A text is cut between characters.** Every text is read as runes in exactly one way, each stray
byte as a rune of its own. A text with at most `limit` runes is left as it is. Any other becomes its
first `limit` runes as characters, with an ellipsis behind them, which is valid whatever the text
was. If the text was valid, these characters are written as it begins, so that a front of the text
is left, valid and with exactly `limit` characters. -/
theorem truncate_exact (s : Bytes) (limit : Nat) :
    ∃ rs : List Rune, (∀ rs', Decodes s rs' ↔ rs' = rs) ∧
      (rs.length ≤ limit → truncate limit s = s) ∧
      (limit < rs.length → ∃ cs : List Char,
        cs = (rs.take limit).map Rune.char ∧ cs.length = limit ∧
        truncate limit s = encodeAll cs ++ utf8 "..." ∧
        valid (truncate limit s) = true ∧
        (valid s = true → encodeAll cs <+: s ∧ valid (encodeAll cs) = true ∧
          Decodes (encodeAll cs) (cs.map .scalar))) := by
  refine ⟨runes s, fun rs' => decodes_iff, ?_, ?_⟩
  · intro hshort
    rw [truncate, if_pos hshort]
  · intro hlong
    have htruncate : truncate limit s
        = encodeAll (((runes s).take limit).map Rune.char) ++ utf8 "..." := by
      rw [truncate, if_neg (Nat.not_le.2 hlong)]
    refine ⟨_, rfl, ?_, htruncate, ?_, ?_⟩
    · rw [List.length_map, List.length_take]
      omega
    · rw [htruncate]
      exact valid_ellipsis _
    · intro hvalid
      exact ⟨(decodes_runes s).encodeAll_take hvalid limit, valid_encodeAll _, decodes_encodeAll _⟩

/-- A character of two bytes is kept whole, and a stray byte in front of the cut is replaced. -/
example : truncate 3 (utf8 "\"héllo\"") = utf8 "\"hé..." ∧
    truncate 2 (0xFF :: utf8 "aé") = utf8 "�a..." := by with_unfolding_all decide

end Text

end Reckoner
