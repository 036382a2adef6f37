import Mathlib.Data.List.TakeWhile
import Reckoner.Proofs.Doubles
import Reckoner.Proofs.Retention
import Reckoner.Proofs.Spacing
import Reckoner.Proofs.Validity

/-!
# Reckoner.Proofs.Printed — printed values are read back

The positional form of a decimal is one number token, however many digits it takes, and the token
has the double that the decimal is read back as (`Decimal.matches_positional`). A minus sign in
front of it is an operator, whose value is the negated double; so the text of a finite double
evaluates to that double, minus zero included (`evaluate_text`).

A string reads back between quotes if no quote is inside. Operators make strings only by joining
others (`eval_eq_string`), and a string token ends at the first quote; so no run has an outcome with
a quote in it.

Main statement: `outcomes_read_back`.
-/

namespace Reckoner

/-! ## Digits as a double -/

namespace Number

theorem ofDigits_append_zeros (s : Bytes) (k : Nat) :
    ofDigits (s ++ zeros k) = ofDigits s * Nat.pow 10 k := by
  induction k with
  | zero => simp [zeros]
  | succ k ih =>
    have hlast : zeros (k + 1) = zeros k ++ [48] := List.replicate_succ'
    have hdigit : digitValue 48 = 0 := rfl
    rw [hlast, ← List.append_assoc, ofDigits, List.foldl_append]
    show 10 * ofDigits (s ++ zeros k) + digitValue 48 = _
    rw [ih, hdigit]
    simp only [Nat.pow_eq, Nat.pow_succ]
    ac_rfl

theorem ofDecimal_digits {digits : Bytes} (h : ∀ b ∈ digits, Bytes.isDigit b = true) :
    ofDecimal digits = ofRatio (ofDigits digits) 1 := by
  have hwhole : digits.takeWhile Bytes.isDigit = digits := List.takeWhile_eq_self_iff.2 h
  have hrest : digits.dropWhile Bytes.isDigit = [] := List.dropWhile_eq_nil_iff.2 h
  unfold ofDecimal
  simp only [hwhole, hrest, List.drop_nil, List.append_nil]
  rfl

theorem ofDecimal_places {digits : Bytes} (h : ∀ b ∈ digits, Bytes.isDigit b = true)
    (places : Bytes) : ofDecimal (digits ++ byte '.' :: places)
      = ofRatio (ofDigits (digits ++ places)) (Nat.pow 10 places.length) := by
  have hpoint : Bytes.isDigit (byte '.') = false := by decide
  unfold ofDecimal
  rw [List.takeWhile_append_of_pos h, List.dropWhile_append_of_pos h,
    List.takeWhile_cons_of_neg (by simp [hpoint]), List.dropWhile_cons_of_neg (by simp [hpoint]),
    List.append_nil]
  rfl

open Lexeme (Matches Digits)

/-- The digits of a number with a point in front of the last ones are two runs of digits. -/
theorem matches_withPoint (n g : Nat) : Matches (withPoint n (g + 1))
    (some (.number, .number (ofRatio n (Nat.pow 10 (g + 1))))) := by
  unfold withPoint
  rw [if_neg (Nat.succ_ne_zero g)]
  generalize hs : Bytes.padLeft (g + 1 + 1) 48 (decimal n) = s
  have hdigits : ∀ b ∈ s, Bytes.isDigit b = true := hs ▸ isDigit_of_mem_padLeft
  have hvalue : ofDigits s = n := hs ▸ ofDigits_padLeft (g + 2) n
  -- one digit at least is left in front of the point
  have hlength : g + 2 ≤ s.length := by
    rw [← hs, Bytes.padLeft, List.length_append, List.length_replicate]
    omega
  have hfront : Digits (s.take (s.length - (g + 1))) := by
    refine ⟨List.ne_nil_of_length_pos ?_, fun b hb => hdigits b (List.mem_of_mem_take hb)⟩
    rw [List.length_take]
    omega
  have hback : Digits (s.drop (s.length - (g + 1))) := by
    refine ⟨List.ne_nil_of_length_pos ?_, fun b hb => hdigits b (List.mem_of_mem_drop hb)⟩
    rw [List.length_drop]
    omega
  have hplaces : (s.drop (s.length - (g + 1))).length = g + 1 := by
    rw [List.length_drop]
    omega
  have hmatch := Matches.decimal hfront hback
  rwa [ofDecimal_places hfront.2, List.take_append_drop, hvalue, hplaces] at hmatch

/-- **The positional form of a decimal is one number**, the one that the decimal is read back
as. -/
theorem Decimal.matches_positional (d : Decimal) :
    Matches d.positional (some (.number, .number (Float.ofBits d.bits.toUInt64))) := by
  obtain ⟨n, g | g⟩ := d
  · have hdigits : Digits (decimal n ++ if n = 0 then [] else zeros g) := by
      refine ⟨by simp [decimal_ne_nil], fun b hb => ?_⟩
      rcases List.mem_append.1 hb with hb | hb
      · exact isDigit_of_mem_decimal b hb
      · split at hb
        · cases hb
        · rw [List.eq_of_mem_replicate hb]
          rfl
    have hvalue : ofDigits (decimal n ++ if n = 0 then [] else zeros g) = n * Nat.pow 10 g := by
      split
      · rename_i hzero
        rw [List.append_nil, ofDigits_decimal, hzero, Nat.zero_mul]
      · rw [ofDigits_append_zeros, ofDigits_decimal]
    have hmatch := Matches.whole hdigits
    rwa [ofDecimal_digits hdigits.2, hvalue] at hmatch
  · exact matches_withPoint n g

end Number

/-! ## Values as sources -/

namespace Session

open Lexeme (Matches)

open Token (Reached)

open Grammar (Derives)

theorem evaluate_of_derives {source : Bytes} {tokens : List Token} {t : Tree} {v : Value}
    (h : Reached source ⟨source, tokens, []⟩) (d : Derives .expression tokens t)
    (heval : t.eval = .ok v) : evaluate source = .ok v := by
  have hparse : Tree.parseSingle (tokens ++ [Token.endMark (Token.lineAfter source)]) = .ok t :=
    Tree.single_eq_ok_iff.2 ⟨tokens, _, rfl, d, .inl rfl⟩
  unfold evaluate
  rw [Token.scan_of_end h]
  simp only [hparse, heval]

theorem reached_of_matches {text : Bytes} {kind : TokenKind} {literal : Value}
    (h : Matches text (some (kind, literal))) :
    Reached text ⟨text, [⟨kind, text, literal, 1⟩], []⟩ := by
  let t : Token := ⟨kind, text, literal, 1⟩
  have hend : Reached (t.lexeme ++ []) ⟨t.lexeme, [t], []⟩ := Token.reached_first h (by simp)
  rwa [List.append_nil] at hend

/-- A text that is one operand evaluates to it. -/
theorem evaluate_of_matches {text : Bytes} {kind : TokenKind} {literal v : Value}
    (h : Matches text (some (kind, literal)))
    (hv : Token.operand? ⟨kind, text, literal, 1⟩ = some v) : evaluate text = .ok v := by
  have d := Tree.derives_of_operand? hv
  exact evaluate_of_derives (reached_of_matches h) (d.loosen (Nat.zero_le _)) rfl

/-- A minus sign in front of a number evaluates to the negation. -/
theorem evaluate_minus {text : Bytes} {x : Float}
    (h : Matches text (some (.number, .number x))) :
    evaluate (byte '-' :: text) = .ok (.number (-x)) := by
  have hmark := Lexeme.next_mark (show (byte '-', TokenKind.minus) ∈ Lexeme.marks by decide) text
  have hsign : Reached (byte '-' :: text)
      ⟨[byte '-'], [⟨.minus, [byte '-'], .nil, 1⟩], text⟩ := .single (Token.step_of_next hmark)
  -- behind the sign the number is cut off as it would be on its own
  have hend := hsign.behind (reached_of_matches h)
  have dsigned : ∀ line, Derives .unary
      [⟨.minus, [byte '-'], .nil, 1⟩, ⟨.number, text, .number x, line⟩]
      (.unary ⟨.minus, [byte '-'], .nil, 1⟩ (.literal (.number x))) :=
    fun _ => .signed (.inr rfl) (.unsigned (Tree.derives_of_operand? rfl))
  exact evaluate_of_derives hend ((dsigned _).loosen (Nat.zero_le _)) rfl

/-- **The text of a finite double evaluates to the double**, the sign of zero included. -/
theorem evaluate_text {x : Float} (hx : Number.isFinite x = true) :
    evaluate (Number.text x) = .ok (.number x) := by
  have hbits : (Number.shortest (Number.magnitude x)).bits = Number.magnitude x :=
    Number.bits_shortest (of_decide_eq_true hx)
  have hmatch := (Number.shortest (Number.magnitude x)).matches_positional
  rw [hbits] at hmatch
  obtain ⟨hnan, hinf⟩ := Number.isFinite_iff.1 hx
  rw [Number.text, if_neg (by simp [hnan]), if_neg (by simp [hinf]), Number.sign]
  cases hsign : Number.isNegative x with
  | false =>
    rw [Number.ofBits_magnitude hx hsign] at hmatch
    exact evaluate_of_matches hmatch rfl
  | true =>
    have hminus := evaluate_minus hmatch
    rwa [Number.neg_ofBits_magnitude hx hsign] at hminus

end Session

/-! ## Strings -/

namespace Value

theorem applyUnary_ne_string {op : Token} {v : Value} {s : Bytes} :
    v.applyUnary op ≠ .ok (.string s) := by
  intro h
  unfold applyUnary at h
  split at h
  · cases h
  · split at h <;> cases h
  · cases h

theorem onNumbers_ne_string {op : Token} {f : Float → Float → Value} {left right : Value}
    {s : Bytes} (hf : ∀ x y, f x y ≠ .string s) : left.onNumbers op f right ≠ .ok (.string s) := by
  intro h
  unfold onNumbers at h
  split at h
  · exact hf _ _ (Except.ok.inj h)
  · cases h

/-- Operators make no string but by joining two. -/
theorem applyBinary_eq_string {op : Token} {left right : Value} {s : Bytes}
    (h : left.applyBinary op right = .ok (.string s)) :
    ∃ a b, left = .string a ∧ right = .string b ∧ s = a ++ b := by
  unfold applyBinary at h
  split at h
  · unfold add at h
    split at h
    · cases h
    · cases h
      exact ⟨_, _, rfl, rfl, rfl⟩
    · cases h
  any_goals exact (onNumbers_ne_string (by simp) h).elim
  all_goals cases h

/-- The form in which a value stands in a source: a string between quotes, all else as it is
printed. -/
def written : Value → Bytes
  | string s => Bytes.quoteMark :: (s ++ [Bytes.quoteMark])
  | v => v.text

end Value

namespace Tree

/-- The strings of a tree, from left to right. -/
def strings : Tree → List Bytes
  | literal (.string s) => [s]
  | missing | literal _ => []
  | group inner => inner.strings
  | unary _ operand => operand.strings
  | binary left _ right => left.strings ++ right.strings

/-- **A string value is the tree's strings, one behind the other.** -/
theorem eval_eq_string {t : Tree} {s : Bytes} (h : t.eval = .ok (.string s)) :
    s = t.strings.flatten := by
  induction t generalizing s with
  | missing => cases h
  | literal v =>
    cases h
    exact (List.append_nil s).symm
  | group inner ih => exact ih h
  | unary op operand _ =>
    rw [eval] at h
    split at h
    · cases h
    · exact absurd h Value.applyUnary_ne_string
  | binary left op right ihl ihr =>
    rw [eval] at h
    split at h
    · cases h
    · next l hl =>
      split at h
      · cases h
      · next r hr =>
        obtain ⟨a, b, rfl, rfl, rfl⟩ := Value.applyBinary_eq_string h
        rw [strings, List.flatten_append, ← ihl hl, ← ihr hr]

end Tree

/-- The strings of a derived tree are those of its tokens. -/
theorem Grammar.Derives.literal_of_mem_strings {p : Grammar.Phrase} {ts : List Token} {t : Tree}
    (d : Grammar.Derives p ts t) : ∀ s ∈ t.strings, ∃ tok ∈ ts, tok.literal = .string s := by
  have hliteral : ∀ (tok : Token), ∀ s ∈ (Tree.literal tok.literal).strings,
      ∃ tok' ∈ [tok], tok'.literal = .string s := by
    intro tok s hs
    cases hv : tok.literal with
    | string s' =>
      rw [hv, Tree.strings, List.mem_singleton] at hs
      exact ⟨tok, List.mem_singleton_self tok, hs ▸ hv⟩
    | _ =>
      rw [hv] at hs
      cases hs
  induction d with
  | operand _ ih => exact ih
  | unsigned _ ih => exact ih
  | @chain _ ls rs op _ _ _ _ _ ihl ihr =>
    intro s hs
    rcases List.mem_append.1 hs with hs | hs
    · obtain ⟨tok, htok, hlit⟩ := ihl s hs
      exact ⟨tok, by simp [htok], hlit⟩
    · obtain ⟨tok, htok, hlit⟩ := ihr s hs
      exact ⟨tok, by simp [htok], hlit⟩
  | signed _ _ ih =>
    intro s hs
    obtain ⟨tok, htok, hlit⟩ := ih s hs
    exact ⟨tok, List.mem_cons_of_mem _ htok, hlit⟩
  | group _ _ _ ih =>
    intro s hs
    obtain ⟨tok, htok, hlit⟩ := ih s hs
    exact ⟨tok, by simp [htok], hlit⟩
  | number _ => exact hliteral _
  | string _ => exact hliteral _
  | _ =>
    intro s hs
    cases hs

theorem Lexeme.Matches.quoteMark_not_mem {text s : Bytes} {kind : TokenKind}
    (h : Lexeme.Matches text (some (kind, .string s))) : Bytes.quoteMark ∉ s := by
  cases h with
  | string h => exact h

theorem Token.quoteMark_not_mem_of_scan {source : Bytes} {tokens : List Token}
    (h : Token.scan source = .ok tokens) :
    ∀ t ∈ tokens, ∀ s, t.literal = .string s → Bytes.quoteMark ∉ s := by
  obtain ⟨tokens, hreached, rfl⟩ := Token.scan_eq_ok_iff.1 h
  intro t ht s hs
  rcases List.mem_append.1 ht with ht | ht
  · have hmatch := hreached.matches t ht
    rw [hs] at hmatch
    exact hmatch.quoteMark_not_mem
  · rw [List.mem_singleton.1 ht] at hs
    cases hs

/-! ## Outcomes -/

namespace Session

theorem quoteMark_not_mem_of_mem_run {patience : Patience} {source : Bytes} {o : Outcome}
    (ho : o ∈ (run patience source).1.outcomes) {s : Bytes} (hs : o.value = .string s) :
    Bytes.quoteMark ∉ s := by
  obtain ⟨t, ht, -, heval⟩ := exists_tree_of_mem_run o ho
  obtain ⟨tokens, hscan, used, hused, d⟩ := exists_derives_of_mem_parse ht
  rw [hs] at heval
  rw [Tree.eval_eq_string heval]
  intro hquote
  obtain ⟨part, hpart, hmem⟩ := List.mem_flatten.1 hquote
  obtain ⟨tok, htok, hlit⟩ := d.literal_of_mem_strings part hpart
  exact Token.quoteMark_not_mem_of_scan hscan tok (hused.subset htok) part hlit hmem

/-- **Printed values are read back.** No string among the outcomes of a run has a quote in it. Every
outcome that is not an infinite double or no number at all can be put down as a source, a string
between quotes and all else as it is printed; and this source evaluates to the same value. -/
theorem outcomes_read_back {patience : Patience} {source : Bytes} {o : Outcome}
    (ho : o ∈ (run patience source).1.outcomes) :
    (∀ s, o.value = .string s → Bytes.quoteMark ∉ s) ∧
    ((∀ x, o.value = .number x → Number.isNaN x = false ∧ Number.isInfinite x = false) →
      evaluate o.value.written = .ok o.value) := by
  have hquotes := fun s => quoteMark_not_mem_of_mem_run ho (s := s)
  refine ⟨hquotes, fun hnumber => ?_⟩
  cases hvalue : o.value with
  | nil => exact evaluate_of_matches (.word rfl (List.all_eq_true.1 (by decide))) rfl
  | bool b =>
    cases b with
    | false => exact evaluate_of_matches (.word rfl (List.all_eq_true.1 (by decide))) rfl
    | true => exact evaluate_of_matches (.word rfl (List.all_eq_true.1 (by decide))) rfl
  | number x => exact evaluate_text (Number.isFinite_iff.2 (hnumber x hvalue))
  | string s => exact evaluate_of_matches (.string (hquotes s hvalue)) rfl

/-- Minus zero, and a string that is joined from two and goes over two lines. -/
theorem outcomes_read_back_signed :
    let source := utf8 "-0;\"a\n\"+\"b\""
    let zero := -Number.ofDecimal (utf8 "0")
    ∃ o o', (run .endless source).1.outcomes = [o, o'] ∧ o.value = .number zero ∧
      Number.isNegative zero = true ∧ o'.value = .string (utf8 "a\nb") ∧
      Bytes.quoteMark ∉ utf8 "a\nb" ∧
      evaluate o.value.written = .ok o.value ∧ evaluate o'.value.written = .ok o'.value := by
  intro source zero
  let minus : Token := ⟨.minus, utf8 "-", .nil, 1⟩
  let plus : Token := ⟨.plus, utf8 "+", .nil, 2⟩
  let o : Outcome := ⟨(Tree.unary minus (.literal (.number (Number.ofDecimal (utf8 "0"))))).text,
    .number zero⟩
  let o' : Outcome := ⟨(Tree.binary (.literal (.string (utf8 "a\n"))) plus
    (.literal (.string (utf8 "b")))).text, .string (utf8 "a\nb")⟩
  have hrun : (run .endless source).1.outcomes = [o, o'] := by with_unfolding_all rfl
  have hfinite : Number.isNaN zero = false ∧ Number.isInfinite zero = false := by decide +kernel
  have ho : o ∈ (run .endless source).1.outcomes := by
    rw [hrun]
    exact List.mem_cons_self
  have ho' : o' ∈ (run .endless source).1.outcomes := by
    rw [hrun]
    exact List.mem_cons_of_mem _ (List.mem_singleton_self _)
  refine ⟨o, o', hrun, rfl, by decide +kernel, rfl, (outcomes_read_back ho').1 _ rfl, ?_, ?_⟩
  · refine (outcomes_read_back ho).2 fun x hx => ?_
    rw [← Value.number.inj hx]
    exact hfinite
  · refine (outcomes_read_back ho').2 fun x hx => ?_
    cases hx

end Session

end Reckoner
