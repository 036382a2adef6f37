import Reckoner.Proofs.Origin
import Reckoner.Proofs.Scanning
import Reckoner.Proofs.Retention

/-!
# Reckoner.Proofs.Validity — valid sources have valid outcomes

A source that is valid UTF-8 is cut at ASCII characters only, so that its lexemes and strings are
valid (`Reached.valid`). Printing puts such texts together with ASCII between them, and evaluating
concatenates strings, so that outcomes are valid as well (`outcomes_valid`).

A valid text is the encoding of its characters (`encodeAll_chars`). It may be divided at every ASCII
character (`valid_divided`), since no byte of a longer form is one.
-/

namespace Reckoner

namespace Utf8

/-! ## Valid texts -/

/-- The form of a character is read as one rune. -/
theorem runes_encode_append (c : Char) (rest : Bytes) :
    runes (encode c ++ rest) = .scalar c :: runes rest := by
  have hform := form_encode c
  cases hc : encode c with
  | nil =>
    rw [hc] at hform
    cases hform
  | cons b tail =>
    rw [hc] at hform
    rw [List.cons_append, runes_cons, next_of_form hform]

theorem valid_nil : valid [] = true := by
  rw [valid, runes_nil]
  rfl

theorem valid_encode_append (c : Char) (rest : Bytes) : valid (encode c ++ rest) = valid rest := by
  rw [valid, runes_encode_append, List.all_cons]
  rfl

theorem valid_encodeAll (cs : List Char) : valid (encodeAll cs) = true := by
  induction cs with
  | nil => exact valid_nil
  | cons c cs ih =>
    show valid (encode c ++ encodeAll cs) = true
    rw [valid_encode_append]
    exact ih

/-- A valid text is the encoding of its characters. -/
theorem encodeAll_chars {s : Bytes} (h : valid s = true) : encodeAll (chars s) = s := by
  induction hn : s.length using Nat.strongRecOn generalizing s with
  | ind n ih =>
    rcases s with _ | ⟨b, rest⟩
    · rw [chars, runes_nil]
      rfl
    obtain ⟨c, more, tail, -, rfl, hform⟩ | hstray := form_of_next b rest
    · have hsplit : b :: (tail ++ more) = encode c ++ more := by
        rw [hform.encode_eq]
        rfl
      rw [hsplit, valid_encode_append] at h
      rw [hsplit, chars, runes_encode_append]
      have hmore : more.length < n := by
        rw [← hn, List.length_cons, List.length_append]
        omega
      show encode c ++ encodeAll (chars more) = encode c ++ more
      rw [ih _ hmore h rfl]
    · rw [valid, runes_cons, hstray] at h
      cases h

/-- What stands behind a valid text decides whether the whole is valid. -/
theorem valid_append_left {s : Bytes} (h : valid s = true) (t : Bytes) :
    valid (s ++ t) = valid t := by
  rw [← encodeAll_chars h]
  induction chars s with
  | nil => rfl
  | cons c cs ih =>
    show valid (encode c ++ encodeAll cs ++ t) = valid t
    rw [List.append_assoc, valid_encode_append]
    exact ih

theorem valid_append {s t : Bytes} (hs : valid s = true) (ht : valid t = true) :
    valid (s ++ t) = true := by
  rw [valid_append_left hs]
  exact ht

/-- Are the bytes of a text ASCII characters? -/
def Ascii (s : Bytes) : Prop := ∀ b ∈ s, b.toNat < 0x80

instance (s : Bytes) : Decidable (Ascii s) := List.decidableBAll (fun b : UInt8 => b.toNat < 0x80) s

theorem valid_cons {b : UInt8} (hb : b.toNat < 0x80) (rest : Bytes) :
    valid (b :: rest) = valid rest := by
  have hvalid : b.toNat.isValidChar := Or.inl (by omega)
  have hform : Form (Char.ofNat b.toNat) [b] := .one hb (toNat_ofNat hvalid)
  have hsplit : b :: rest = encode (Char.ofNat b.toNat) ++ rest := by
    rw [hform.encode_eq]
    rfl
  rw [hsplit, valid_encode_append]

theorem Ascii.valid {s : Bytes} (h : Ascii s) : valid s = true := by
  induction s with
  | nil => exact valid_nil
  | cons b rest ih =>
    obtain ⟨hb, hrest⟩ := List.forall_mem_cons.1 h
    rw [valid_cons hb]
    exact ih hrest

/-- **A valid text may be divided at every ASCII character.** -/
theorem valid_divided {s t : Bytes} {b : UInt8} (hb : b.toNat < 0x80)
    (h : valid (s ++ b :: t) = true) : valid s = true ∧ valid t = true := by
  -- by the length of the front, of which a whole form is taken off
  induction hn : s.length using Nat.strongRecOn generalizing s with
  | ind n ih =>
    rcases s with _ | ⟨x, s⟩
    · rw [List.nil_append, valid_cons hb] at h
      exact ⟨valid_nil, h⟩
    obtain ⟨c, more, tail, -, hsplit, hform⟩ | hstray := form_of_next x (s ++ b :: t)
    · obtain ⟨s', rfl, rfl⟩ : ∃ s', s = tail ++ s' ∧ more = s' ++ b :: t := by
        rcases List.append_eq_append_iff.1 hsplit with ⟨front, htail, hrest⟩ | ⟨s', hs, hmore⟩
        · rcases front with _ | ⟨y, front⟩
          · exact ⟨[], by simpa using htail.symm, by simpa using hrest.symm⟩
          · -- the form would go on past the ASCII character
            obtain ⟨rfl, -⟩ := List.cons.inj hrest
            have hge := hform.tail_ge b (by simp [htail])
            omega
        · exact ⟨s', hs, hmore⟩
      have hwhole : ∀ rest, x :: (tail ++ rest) = encode c ++ rest := by
        intro rest
        rw [hform.encode_eq]
        rfl
      rw [List.cons_append, List.append_assoc, hwhole, valid_encode_append] at h
      have hlt : s'.length < n := by
        rw [← hn, List.length_cons, List.length_append]
        omega
      obtain ⟨hs', ht⟩ := ih _ hlt h rfl
      rw [hwhole, valid_encode_append]
      exact ⟨hs', ht⟩
    · rw [valid, List.cons_append, runes_cons, hstray] at h
      cases h

theorem Ascii.append {s t : Bytes} (hs : Ascii s) (ht : Ascii t) : Ascii (s ++ t) :=
  List.forall_mem_append.2 ⟨hs, ht⟩

end Utf8

open Utf8 (valid Ascii)

/-! ## Numbers and other values -/

namespace Number

theorem ascii_of_digits {s : Bytes} (h : ∀ b ∈ s, Bytes.isDigit b = true) : Ascii s := by
  intro b hb
  have hrange := (Lexeme.isDigit_iff b).1 (h b hb)
  omega

theorem ascii_decimal (n : Nat) : Ascii (decimal n) := ascii_of_digits isDigit_of_mem_decimal

theorem ascii_replicate (n : Nat) : Ascii (List.replicate n 48) := by
  intro b hb
  rw [List.eq_of_mem_replicate hb]
  decide

theorem ascii_withPoint (digits places : Nat) : Ascii (withPoint digits places) := by
  unfold withPoint
  split
  · exact ascii_decimal digits
  · have hpadded : Ascii (Bytes.padLeft (places + 1) 48 (decimal digits)) :=
      (ascii_replicate _).append (ascii_decimal digits)
    refine List.forall_mem_append.2 ⟨?_, List.forall_mem_cons.2 ⟨by decide, ?_⟩⟩
    · exact fun b hb => hpadded b (List.mem_of_mem_take hb)
    · exact fun b hb => hpadded b (List.mem_of_mem_drop hb)

theorem Decimal.ascii_positional (d : Decimal) : Ascii d.positional := by
  unfold positional
  split
  · apply (ascii_decimal _).append
    split
    · decide
    · exact ascii_replicate _
  · exact ascii_withPoint _ _

/-- Numbers are printed in ASCII. -/
theorem ascii_text (x : Float) : Ascii (text x) := by
  have hsign : Ascii (sign x) := by
    unfold sign
    split <;> decide
  unfold text
  split
  · decide
  split
  · exact hsign.append (by decide)
  · exact hsign.append (Decimal.ascii_positional _)

end Number

/-- A value that is no string is printed in ASCII. -/
theorem Value.valid_text {v : Value} (h : ∀ s, v = .string s → valid s = true) :
    valid v.text = true := by
  cases v with
  | nil => exact Ascii.valid (by decide)
  | bool b => cases b <;> exact Ascii.valid (by decide)
  | number x => exact (Number.ascii_text x).valid
  | string s => exact h s rfl

/-! ## Tokens -/

/-- Are the texts that a token carries valid? -/
def Token.Valid (t : Token) : Prop := valid t.lexeme = true ∧ valid t.literal.text = true

/-- A comment goes on to a newline or to the end. -/
theorem Lexeme.LongestMatch.newline_of_comment {body rest : Bytes} {b : UInt8}
    {token? : Option (TokenKind × Value)} (hbody : Bytes.newline ∉ body)
    (h : LongestMatch (byte '/' :: byte '/' :: body ++ b :: rest) (byte '/' :: byte '/' :: body)
      token?) : b = Bytes.newline := by
  by_contra hne
  have hlonger : Matches (byte '/' :: byte '/' :: (body ++ [b])) none := by
    apply Matches.comment
    simp only [List.mem_append, List.mem_singleton, not_or]
    exact ⟨hbody, fun heq => hne heq.symm⟩
  have hle := h.2.2 _ _ hlonger ⟨rest, by simp⟩
  simp only [List.length_cons, List.length_append, List.length_nil] at hle
  omega

/-- **A valid text is cut into valid texts.** -/
theorem Lexeme.LongestMatch.valid {text rest : Bytes} {token? : Option (TokenKind × Value)}
    (h : LongestMatch (text ++ rest) text token?) (hvalid : valid (text ++ rest) = true) :
    Utf8.valid text = true ∧ Utf8.valid rest = true ∧
      ∀ token ∈ token?, Utf8.valid token.2.text = true := by
  -- all patterns but comments and strings are of ASCII characters
  have hplain : Ascii text → Utf8.valid text = true ∧ Utf8.valid rest = true := by
    intro hascii
    rw [Utf8.valid_append_left hascii.valid] at hvalid
    exact ⟨hascii.valid, hvalid⟩
  have hdigits : ∀ {s : Bytes}, Digits s → Ascii s := fun hs => Number.ascii_of_digits hs.2
  have hspellings : ∀ entry ∈ spellings, Ascii entry.1 := by decide
  have hliteral : ∀ {kind : TokenKind} {v : Value}, (∀ s, v = .string s → Utf8.valid s = true) →
      ∀ token ∈ some (kind, v), Utf8.valid token.2.text = true := by
    intro kind v hv token htoken
    cases htoken
    exact Value.valid_text hv
  have hmatch := h.1
  cases hmatch with
  | spelling hmem =>
    obtain ⟨htext, hrest⟩ := hplain (hspellings _ hmem)
    exact ⟨htext, hrest, hliteral (by simp)⟩
  | @comment body hbody =>
    rcases rest with _ | ⟨b, rest⟩
    · rw [List.append_nil] at hvalid
      exact ⟨hvalid, Utf8.valid_nil, by simp⟩
    · obtain rfl := h.newline_of_comment hbody
      obtain ⟨htext, hrest⟩ := Utf8.valid_divided (by decide) hvalid
      have hnewline : Utf8.valid (Bytes.newline :: rest) = true := by
        rwa [Utf8.valid_cons (by decide)]
      exact ⟨htext, hnewline, by simp⟩
  | @blank b hmem =>
    have hb := (isBlank_iff b).1 ((isBlank_iff_mem b).2 hmem)
    obtain ⟨htext, hrest⟩ := hplain (List.forall_mem_singleton.2 (by omega))
    exact ⟨htext, hrest, by simp⟩
  | @string body hbody =>
    rw [List.cons_append, List.append_assoc, Utf8.valid_cons (by decide)] at hvalid
    obtain ⟨hinner, hrest⟩ := Utf8.valid_divided (by decide) hvalid
    rw [Utf8.valid_cons (by decide), Utf8.valid_append_left hinner]
    refine ⟨Ascii.valid (by decide), hrest, hliteral ?_⟩
    intro s hs
    cases hs
    exact hinner
  | whole hwhole =>
    obtain ⟨htext, hrest⟩ := hplain (hdigits hwhole)
    exact ⟨htext, hrest, hliteral (by simp)⟩
  | @decimal digits places hwhole hplaces =>
    have hascii : Ascii (digits ++ byte '.' :: places) :=
      (hdigits hwhole).append (List.forall_mem_cons.2 ⟨by decide, hdigits hplaces⟩)
    obtain ⟨htext, hrest⟩ := hplain hascii
    exact ⟨htext, hrest, hliteral (by simp)⟩
  | @word b more hb hmore =>
    have hpart : ∀ c, Bytes.isWordPart c = true → c.toNat < 0x80 := by
      intro c hc
      rcases Bool.or_eq_true _ _ ▸ hc with hc | hc
      · have hrange := (isWordStart_iff c).1 hc
        omega
      · have hrange := (isDigit_iff c).1 hc
        omega
    have hascii : Ascii (b :: more) := by
      refine List.forall_mem_cons.2 ⟨hpart b ?_, fun c hc => hpart c (hmore c hc)⟩
      rw [Bytes.isWordPart, hb, Bool.true_or]
    obtain ⟨htext, hrest⟩ := hplain hascii
    exact ⟨htext, hrest, hliteral (by simp)⟩

namespace Token

theorem Step.valid {p q : Place} (h : Step p q) (hrest : Utf8.valid p.rest = true)
    (htokens : ∀ t ∈ p.tokens, t.Valid) :
    Utf8.valid q.rest = true ∧ ∀ t ∈ q.tokens, t.Valid := by
  cases h with
  | @cut before text rest tokens token? longest =>
    obtain ⟨htext, hmore, hliteral⟩ := longest.valid hrest
    refine ⟨hmore, List.forall_mem_append.2 ⟨htokens, ?_⟩⟩
    cases token? with
    | none => simp [ofMatch]
    | some token => exact List.forall_mem_singleton.2 ⟨htext, hliteral token rfl⟩

/-- **At every place of a valid source**, the rest is valid and so are the tokens in front. -/
theorem Reached.valid {source : Bytes} {place : Place} (h : Reached source place)
    (hsource : Utf8.valid source = true) :
    Utf8.valid place.rest = true ∧ ∀ t ∈ place.tokens, t.Valid := by
  induction h with
  | refl => exact ⟨hsource, by simp⟩
  | tail _ step ih => exact step.valid ih.1 ih.2

/-- The tokens of a valid source are valid. -/
theorem valid_of_scan {source : Bytes} {tokens : List Token} (hscan : scan source = .ok tokens)
    (hsource : Utf8.valid source = true) : ∀ t ∈ tokens, t.Valid := by
  obtain ⟨front, hreached, rfl⟩ := scan_eq_ok_iff.1 hscan
  refine List.forall_mem_append.2 ⟨(hreached.valid hsource).2, List.forall_mem_singleton.2 ?_⟩
  exact ⟨Utf8.valid_nil, Value.valid_text fun s hs => nomatch hs⟩

end Token

/-! ## Operators -/

namespace Value

theorem valid_applyUnary {op : Token} {operand v : Value} (h : operand.applyUnary op = .ok v) :
    valid v.text = true := by
  unfold applyUnary at h
  split at h
  · cases h
    exact valid_text (by simp)
  · split at h
    · cases h
      exact valid_text (by simp)
    · cases h
  · cases h

theorem valid_add {op : Token} {left right v : Value} (hleft : valid left.text = true)
    (hright : valid right.text = true) (h : left.add op right = .ok v) : valid v.text = true := by
  unfold add at h
  split at h
  · cases h
    exact valid_text (by simp)
  · cases h
    exact Utf8.valid_append hleft hright
  · cases h

theorem valid_onNumbers {op : Token} {f : Float → Float → Value} {left right v : Value}
    (hf : ∀ x y s, f x y ≠ .string s) (h : left.onNumbers op f right = .ok v) :
    valid v.text = true := by
  unfold onNumbers at h
  split at h
  · cases h
    exact valid_text fun s hs => absurd hs (hf _ _ s)
  · cases h

/-- Operators make no string but the concatenation of two. -/
theorem valid_applyBinary {op : Token} {left right v : Value} (hleft : valid left.text = true)
    (hright : valid right.text = true) (h : left.applyBinary op right = .ok v) :
    valid v.text = true := by
  unfold applyBinary at h
  split at h
  · exact valid_add hleft hright h
  any_goals exact valid_onNumbers (by simp) h
  any_goals (cases h; exact valid_text (by simp))
  cases h

end Value

/-! ## Trees and runs -/

/-- A tree of valid tokens is printed in valid texts, and so is its value. -/
theorem Grammar.Derives.valid {p : Phrase} {ts : List Token} {t : Tree} (d : Derives p ts t)
    (h : ∀ tok ∈ ts, tok.Valid) :
    Utf8.valid t.text = true ∧ ∀ v, t.eval = .ok v → Utf8.valid v.text = true := by
  have hliteral : ∀ {v : Value}, Utf8.valid v.text = true →
      Utf8.valid (Tree.text (.literal v)) = true ∧
        ∀ w, (Tree.literal v).eval = .ok w → Utf8.valid w.text = true := by
    intro v hv
    refine ⟨by rwa [Tree.text_literal], ?_⟩
    intro w hw
    cases hw
    exact hv
  induction d with
  | operand _ ih => exact ih h
  | unsigned _ ih => exact ih h
  | number => exact hliteral (h _ List.mem_cons_self).2
  | string => exact hliteral (h _ List.mem_cons_self).2
  | trueWord => exact hliteral (Value.valid_text (by simp))
  | falseWord => exact hliteral (Value.valid_text (by simp))
  | nilWord => exact hliteral (Value.valid_text (by simp))
  | group _ _ _ ih =>
    obtain ⟨htext, heval⟩ := ih fun tok htok => h tok (by simp [htok])
    refine ⟨?_, heval⟩
    rw [Tree.text_group]
    apply Utf8.valid_append
    · exact Utf8.valid_append (Ascii.valid (by decide)) htext
    · exact Ascii.valid (by decide)
  | @signed op ts t _ _ ih =>
    obtain ⟨htext, heval⟩ := ih fun tok htok => h tok (by simp [htok])
    have hop := (h op List.mem_cons_self).1
    constructor
    · rw [Tree.text_unary, List.cons_append, List.cons_append, Utf8.valid_cons (by decide),
        List.append_assoc, Utf8.valid_append_left hop, List.cons_append,
        Utf8.valid_cons (by decide), Utf8.valid_append_left htext]
      exact Ascii.valid (by decide)
    · intro v hv
      rw [Tree.eval] at hv
      split at hv
      · cases hv
      · exact Value.valid_applyUnary hv
  | @chain l ls rs op left right _ _ _ ihl ihr =>
    obtain ⟨hleft, hevall⟩ := ihl fun tok htok => h tok (by simp [htok])
    obtain ⟨hright, hevalr⟩ := ihr fun tok htok => h tok (by simp [htok])
    have hop := (h op (by simp)).1
    constructor
    · rw [Tree.text_binary]
      simp only [List.cons_append, List.append_assoc]
      rw [Utf8.valid_cons (by decide), Utf8.valid_append_left hop, Utf8.valid_cons (by decide),
        Utf8.valid_append_left hleft, Utf8.valid_cons (by decide), Utf8.valid_append_left hright]
      exact Ascii.valid (by decide)
    · intro v hv
      rw [Tree.eval] at hv
      split at hv
      · cases hv
      · next l hl =>
        split at hv
        · cases hv
        · next r hr => exact Value.valid_applyBinary (hevall l hl) (hevalr r hr) hv

namespace Session

/-- Every outcome is that of a tree. -/
theorem exists_tree_of_mem_evaluateOnto {done : List Outcome} {patience : Patience}
    {trees : List Tree} :
    ∀ o ∈ (evaluateOnto done patience trees).1.outcomes,
      o ∈ done ∨ ∃ t ∈ trees, o.expression = t.text ∧ t.eval = .ok o.value := by
  induction trees generalizing done patience with
  | nil =>
    intro o ho
    exact .inl (List.mem_reverse.1 ho)
  | cons t rest ih =>
    intro o ho
    rw [evaluateOnto] at ho
    split at ho
    · exact .inl (List.mem_reverse.1 ho)
    · split at ho
      · exact .inl (List.mem_reverse.1 ho)
      · next v hv =>
        obtain hdone | ⟨u, hu, heval⟩ := ih o ho
        · rcases List.mem_cons.1 hdone with rfl | hdone
          · exact .inr ⟨t, List.mem_cons_self, rfl, hv⟩
          · exact .inl hdone
        · exact .inr ⟨u, List.mem_cons_of_mem t hu, heval⟩

/-- The outcomes of a run are those of trees of the source. -/
theorem exists_tree_of_mem_run {patience : Patience} {source : Bytes} :
    ∀ o ∈ (run patience source).1.outcomes,
      ∃ t ∈ (parse source).1, o.expression = t.text ∧ t.eval = .ok o.value := by
  intro o ho
  unfold run at ho
  split at ho
  · cases ho
  · next trees hparse =>
    obtain hdone | htree := exists_tree_of_mem_evaluateOnto o ho
    · cases hdone
    · rwa [hparse]

/-- **The outcomes of a valid source are valid.** -/
theorem outcomes_valid {source : Bytes} (h : valid source = true) (patience : Patience) :
    ∀ o ∈ (run patience source).1.outcomes,
      valid o.expression = true ∧ valid o.value.text = true := by
  intro o ho
  obtain ⟨t, ht, htext, heval⟩ := exists_tree_of_mem_run o ho
  obtain ⟨tokens, hscan, used, hused, hderives⟩ := exists_derives_of_mem_parse ht
  have htokens := Token.valid_of_scan hscan h
  obtain ⟨hprinted, hvalue⟩ := hderives.valid fun tok htok => htokens tok (hused.subset htok)
  rw [htext]
  exact ⟨hprinted, hvalue _ heval⟩

end Session

end Reckoner
