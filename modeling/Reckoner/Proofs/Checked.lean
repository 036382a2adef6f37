import Reckoner.Proofs.Newline
import Reckoner.Proofs.Cursor
import Reckoner.Proofs.Origin

/-!
# Reckoner.Proofs.Checked — no access goes wrong

Lists and patterns cannot be used wrongly. A buffer with positions in it can, for a position may lie
behind its end; and so can a value with an accessor for each type. Here scanning and evaluating are
done once more in that way, with every access checked: `Crash` is what a failed check leaves behind.
They do the same as before (`scanBy_eq`, `evalBy_eq`), so that no check ever fails, and whole runs
do too (`runBy_eq`).

Scanning is compared place by place. In the text `before ++ s` the position `before.length` is the
one from which `s` is read; each access there is about the front of `s`, and a loop over positions
goes past the bytes that `takeWhile` takes off. Lines are counted on the way, at a newline and in a
string; that they come out the same is `Matches.of_newline_mem`.

Main statement: `run_safe`, which also says which faults a run may end with: none of them is about
a tree that the evaluator does not know. That a very deep source may exhaust the call stack is
outside the model.
-/

namespace Reckoner

/-- An access that went wrong. -/
inductive Crash where
  /-- An index that is not below the length, or a part of a text that is not inside it. -/
  | outOfRange (index length : Nat)
  /-- An accessor used on a value of another type. -/
  | misuse (accessor : Bytes) (v : Value)
  /-- A turn of a loop that took nothing off the text. -/
  | stalled (index : Nat)

/-- An answer if all accesses on the way were right. -/
abbrev Checked (α : Type) := Except Crash α

namespace Checked

theorem ok_bind {α β : Type} (a : α) (f : α → Checked β) : (Except.ok a >>= f) = f a := rfl

/-! ## Accesses -/

/-- The item at an index. -/
def item {α : Type} (items : List α) (i : Nat) : Checked α :=
  match items[i]? with
  | some a => .ok a
  | none => .error (.outOfRange i items.length)

theorem item_of_lt {α : Type} {items : List α} {i : Nat} (h : i < items.length) :
    item items i = .ok items[i] := by
  unfold item
  rw [List.getElem?_eq_getElem h]

/-- The part of a text from one index to another. -/
def slice (s : Bytes) (start stop : Nat) : Checked Bytes :=
  if start ≤ stop ∧ stop ≤ s.length then .ok ((s.take stop).drop start)
  else .error (.outOfRange stop s.length)

/-- The number in a value. -/
def number (v : Value) : Checked Float :=
  match v.number? with
  | some x => .ok x
  | none => .error (.misuse (utf8 "AsNumber") v)

/-- The string in a value. -/
def string (v : Value) : Checked Bytes :=
  match v.string? with
  | some s => .ok s
  | none => .error (.misuse (utf8 "AsString") v)

/-- The byte at an index, zero from the end on. -/
def peek (s : Bytes) (i : Nat) : Checked UInt8 :=
  if s.length ≤ i then .ok 0 else item s i

/-- Does this byte stand at the index? -/
def follows (s : Bytes) (expected : UInt8) (i : Nat) : Checked Bool :=
  if s.length ≤ i then .ok false
  else do
    let b ← item s i
    return b == expected

/-- The first index from `i` on where `go` no longer holds of the byte that is seen there, and of
whether that is the end. -/
def skip (s : Bytes) (go : UInt8 → Bool → Bool) (i : Nat) : Checked Nat :=
  match peek s i with
  | .error crash => .error crash
  | .ok b =>
    if go b (s.length ≤ i) then
      if i < s.length then skip s go (i + 1) else .error (.outOfRange i s.length)
    else .ok i
termination_by s.length - i

/-! ## Places in a text -/

/-- `At s i rest`: the text from the index on is `rest`. -/
def At (s : Bytes) (i : Nat) (rest : Bytes) : Prop :=
  ∃ before, s = before ++ rest ∧ i = before.length

theorem At.start (s : Bytes) : At s 0 s := ⟨[], rfl, rfl⟩

section At

variable {s text rest : Bytes} {b : UInt8} {i : Nat}

theorem At.behind (h : At s i (text ++ rest)) : At s (i + text.length) rest := by
  obtain ⟨before, rfl, rfl⟩ := h
  refine ⟨before ++ text, ?_, ?_⟩
  · rw [List.append_assoc]
  · rw [List.length_append]

theorem At.tail (h : At s i (b :: rest)) : At s (i + 1) rest := by
  obtain ⟨before, rfl, rfl⟩ := h
  exact ⟨before ++ [b], by simp, by simp⟩

theorem At.length_eq (h : At s i rest) : s.length = i + rest.length := by
  obtain ⟨before, rfl, rfl⟩ := h
  exact List.length_append

theorem At.item_eq (h : At s i (b :: rest)) : item s i = .ok b := by
  obtain ⟨before, rfl, rfl⟩ := h
  simp [item]

theorem At.slice_eq (h : At s i (text ++ rest)) : slice s i (i + text.length) = .ok text := by
  obtain ⟨before, rfl, rfl⟩ := h
  unfold slice
  rw [if_pos]
  · rw [← List.append_assoc, ← List.length_append, List.take_left, List.drop_left]
  · simp only [List.length_append]
    omega

theorem At.peek_eq (h : At s i rest) : peek s i = .ok (rest.headD 0) := by
  have hlen := h.length_eq
  unfold peek
  cases rest with
  | nil =>
    rw [if_pos]
    · rfl
    · exact Nat.le_of_eq hlen
  | cons b rest =>
    rw [List.length_cons] at hlen
    rw [if_neg (by omega), h.item_eq]
    rfl

/-- One byte further ahead. -/
theorem At.peek_tail_eq (h : At s i rest) : peek s (i + 1) = .ok (rest.tail.headD 0) := by
  cases rest with
  | nil =>
    have hlen : s.length ≤ i := Nat.le_of_eq h.length_eq
    unfold peek
    rw [if_pos (Nat.le_succ_of_le hlen)]
    rfl
  | cons b rest => exact h.tail.peek_eq

theorem At.follows_eq (h : At s i rest) (expected : UInt8) :
    follows s expected i = .ok (rest.head? == some expected) := by
  have hlen := h.length_eq
  unfold follows
  cases rest with
  | nil =>
    rw [if_pos]
    · rfl
    · exact Nat.le_of_eq hlen
  | cons b rest =>
    rw [List.length_cons] at hlen
    rw [if_neg (by omega), h.item_eq]
    rfl

/-- A loop over positions that stops at the end goes past a run of bytes. -/
theorem At.skip_eq {go : UInt8 → Bool → Bool} {p : UInt8 → Bool} (h : At s i rest)
    (hgo : ∀ b, go b false = p b) (hend : go 0 true = false) :
    skip s go i = .ok (i + (rest.takeWhile p).length) := by
  induction rest generalizing i with
  | nil =>
    have hlen : s.length ≤ i := Nat.le_of_eq h.length_eq
    rw [skip, h.peek_eq]
    simp only [List.headD_nil, hlen, decide_true, hend]
    rfl
  | cons b rest ih =>
    have hlen := h.length_eq
    rw [List.length_cons] at hlen
    have hlt : i < s.length := by omega
    rw [skip, h.peek_eq]
    simp only [List.headD_cons, Nat.not_le.2 hlt, decide_false, hgo]
    cases hp : p b with
    | true =>
      rw [if_pos rfl, if_pos hlt, ih h.tail, List.takeWhile_cons_of_pos hp, List.length_cons]
      congr 1
      omega
    | false =>
      rw [List.takeWhile_cons_of_neg (by simp [hp])]
      rfl

/-- Bytes of a sort, to which the zero that is seen at the end does not belong. -/
theorem At.skip_while (h : At s i rest) {p : UInt8 → Bool} (hp : p 0 = false) :
    skip s (fun b _ => p b) i = .ok (i + (rest.takeWhile p).length) :=
  h.skip_eq (fun _ => rfl) hp

/-- Bytes up to a mark or the end. -/
theorem At.skip_until (h : At s i rest) (mark : UInt8) :
    skip s (fun b atEnd => b != mark && !atEnd) i
      = .ok (i + (rest.takeWhile (· != mark)).length) := by
  apply h.skip_eq
  · intro b
    simp
  · simp

end At

end Checked

open Checked

/-! ## Scanning by positions -/

namespace Lexeme

/-- What is cut off at an index: a token, if it is one, with the index and the line behind it. -/
abbrev Cut := Except Diagnostic (Option Token × Nat × Nat)

/-- A token that is not more than its kind, on one line. -/
def plainBy (s : Bytes) (line start stop : Nat) (kind : TokenKind) : Checked Cut := do
  let text ← slice s start stop
  return .ok (some ⟨kind, text, .nil, line⟩, stop, line)

/-- The index of the quote that closes a string, or of the end, and the line there. -/
def closingBy (s : Bytes) (line i : Nat) : Checked (Nat × Nat) :=
  match peek s i with
  | .error crash => .error crash
  | .ok b =>
    if b != Bytes.quoteMark && !(s.length ≤ i : Bool) then
      if i < s.length then closingBy s (if b = Bytes.newline then line + 1 else line) (i + 1)
      else .error (.outOfRange i s.length)
    else .ok (i, line)
termination_by s.length - i

/-- A string, from its opening quote on. It is on the line where it starts, closed or not. -/
def stringBy (s : Bytes) (startLine start : Nat) : Checked Cut := do
  let (stop, line) ← closingBy s startLine (start + 1)
  if s.length ≤ stop then return .error (Trouble.unterminatedString.diagnostic startLine)
  else
    let _ ← item s stop
    let body ← slice s (start + 1) stop
    let text ← slice s start (stop + 1)
    return .ok (some ⟨.string, text, .string body, startLine⟩, stop + 1, line)

/-- The index behind a fraction that may start at an index. -/
def fractionBy (s : Bytes) (start : Nat) : Checked Nat := do
  let point ← peek s start
  let digit ← peek s (start + 1)
  if point = byte '.' ∧ Bytes.isDigit digit then skip s (fun b _ => Bytes.isDigit b) (start + 1)
  else return start

/-- A number, from its first digit on. -/
def numberBy (s : Bytes) (line start : Nat) : Checked Cut := do
  let whole ← skip s (fun b _ => Bytes.isDigit b) (start + 1)
  let stop ← fractionBy s whole
  let text ← slice s start stop
  return .ok (some ⟨.number, text, .number (Number.ofDecimal text), line⟩, stop, line)

/-- A word, from its first letter on. -/
def wordBy (s : Bytes) (line start : Nat) : Checked Cut := do
  let stop ← skip s (fun b _ => Bytes.isWordPart b) (start + 1)
  let text ← slice s start stop
  plainBy s line start stop (TokenKind.ofWord text)

/-- A comment or a slash. -/
def slashBy (s : Bytes) (line start : Nat) : Checked Cut := do
  if ← follows s (byte '/') (start + 1) then
    let stop ← skip s (fun b atEnd => b != Bytes.newline && !atEnd) (start + 2)
    return .ok (none, stop, line)
  else plainBy s line start (start + 1) .slash

/-- The longer kind if an equals sign follows, else the shorter one. -/
def pickBy (s : Bytes) (line start : Nat) (long short : TokenKind) : Checked Cut := do
  if ← follows s (byte '=') (start + 1) then plainBy s line start (start + 2) long
  else plainBy s line start (start + 1) short

/-- What stands at an index. -/
def cutBy (s : Bytes) (line start : Nat) : Checked Cut := do
  let b ← item s start
  if isBlank b then
    return .ok (none, start + 1, if b = Bytes.newline then line + 1 else line)
  else if b = Bytes.quoteMark then stringBy s line start
  else if Bytes.isDigit b then numberBy s line start
  else if Bytes.isWordStart b then wordBy s line start
  else if b = byte '/' then slashBy s line start
  else match comparisons.lookup b with
    | some (long, short) => pickBy s line start long short
    | none =>
      match marks.lookup b with
      | some kind => plainBy s line start (start + 1) kind
      | none =>
        let rest ← slice s (start + 1) s.length
        let trouble := Trouble.unexpectedCharacter (Utf8.next b rest).1.char
        return .error (trouble.diagnostic line)

/-- The token that a lexeme on this line makes, if it makes one. -/
def tokenOn (line : Nat) (lexeme : Lexeme) : Option Token :=
  lexeme.token?.map fun (kind, literal) => ⟨kind, lexeme.text, literal, line⟩

/-- The lexeme that was cut off in front of the rest, as a cut at this index and line. The line
behind it is counted from the lexeme as a whole. -/
def positioned (line start : Nat) : Except Trouble (Lexeme × Bytes) → Cut
  | .error trouble => .error (trouble.diagnostic line)
  | .ok (lexeme, _) =>
    .ok (tokenOn line lexeme, start + lexeme.text.length, line + Bytes.newlines lexeme.text)

/-- Behind the first byte of anything but a newline and a string there is no newline to count. -/
theorem newlines_of_next {b : UInt8} {rest more : Bytes} {lexeme : Lexeme}
    (h : next b rest = .ok (lexeme, more)) (hline : b ≠ Bytes.newline)
    (hquote : b ≠ Bytes.quoteMark) : Bytes.newlines lexeme.text = 0 := by
  obtain ⟨hmatch, hsplit⟩ := matches_of_next h
  apply List.count_eq_zero_of_not_mem
  intro hmem
  rcases hmatch.of_newline_mem hmem with htext | ⟨body, -, htext⟩
  · rw [htext] at hsplit
    exact hline (List.cons.inj hsplit).1
  · rw [htext] at hsplit
    exact hquote (List.cons.inj hsplit).1

/-- The quotes around a string are no newlines. -/
theorem newlines_quoted (body : Bytes) :
    Bytes.newlines (Bytes.quoteMark :: body ++ [Bytes.quoteMark]) = Bytes.newlines body := by
  show Bytes.newlines ([Bytes.quoteMark] ++ body ++ [Bytes.quoteMark]) = _
  rw [Bytes.newlines_append, Bytes.newlines_append]
  exact Nat.zero_add _

section Cuts

variable {s rest : Bytes} {b : UInt8} {start : Nat}

theorem closingBy_eq (h : At s start rest) (line : Nat) :
    closingBy s line start
      = .ok (start + (rest.takeWhile (· != Bytes.quoteMark)).length,
          line + Bytes.newlines (rest.takeWhile (· != Bytes.quoteMark))) := by
  induction rest generalizing start line with
  | nil =>
    have hlen : s.length ≤ start := Nat.le_of_eq h.length_eq
    rw [closingBy, h.peek_eq]
    simp only [hlen, decide_true, Bool.not_true, Bool.and_false]
    rfl
  | cons b rest ih =>
    have hlen := h.length_eq
    rw [List.length_cons] at hlen
    have hlt : start < s.length := by omega
    rw [closingBy, h.peek_eq, List.headD_cons]
    simp only [Nat.not_le.2 hlt, decide_false, Bool.not_false, Bool.and_true]
    by_cases hquote : b = Bytes.quoteMark
    · subst hquote
      rfl
    · have hgo : (b != Bytes.quoteMark) = true := bne_iff_ne.2 hquote
      rw [if_pos hgo, if_pos hlt, ih h.tail,
        List.takeWhile_cons_of_pos (p := (· != Bytes.quoteMark)) hgo, List.length_cons]
      generalize rest.takeWhile (· != Bytes.quoteMark) = body
      have hcount : (if b = Bytes.newline then line + 1 else line) + Bytes.newlines body
          = line + Bytes.newlines (b :: body) := by
        simp only [Bytes.newlines, List.count_cons, beq_iff_eq]
        split <;> omega
      rw [hcount, Nat.add_assoc, Nat.add_comm 1]

theorem stringBy_eq (h : At s start (Bytes.quoteMark :: rest)) (line : Nat) :
    stringBy s line start = .ok (positioned line start (next Bytes.quoteMark rest)) := by
  have hbody : At s (start + 1)
      (rest.takeWhile (· != Bytes.quoteMark) ++ rest.dropWhile (· != Bytes.quoteMark)) := by
    rw [List.takeWhile_append_dropWhile]
    exact h.tail
  have hlen := hbody.behind.length_eq
  rw [next_quote, stringBy, closingBy_eq h.tail, ok_bind]
  have hsplit := List.takeWhile_append_dropWhile (p := (· != Bytes.quoteMark)) (l := rest)
  have hclosing := List.head?_dropWhile_not (· != Bytes.quoteMark) rest
  generalize rest.takeWhile (· != Bytes.quoteMark) = body at hbody hlen hsplit ⊢
  cases hdrop : rest.dropWhile (· != Bytes.quoteMark) with
  | nil =>
    rw [hdrop, List.length_nil, Nat.add_zero] at hlen
    simp only
    rw [if_pos (Nat.le_of_eq hlen)]
    rfl
  | cons closing more =>
    rw [hdrop] at hbody hlen hsplit hclosing
    rw [List.length_cons] at hlen
    have hquote : closing = Bytes.quoteMark := by simpa using hclosing
    have htext : At s start ((Bytes.quoteMark :: body ++ [closing]) ++ more) := by
      rw [← hsplit] at h
      simpa using h
    have hstop : start + 1 + body.length + 1
        = start + (Bytes.quoteMark :: body ++ [closing]).length := by
      simp only [List.length_append, List.length_cons, List.length_nil]
      omega
    simp only
    rw [if_neg (by omega), hbody.behind.item_eq, ok_bind, hbody.slice_eq, ok_bind, hstop,
      htext.slice_eq, positioned, hquote, newlines_quoted]
    rfl

theorem fractionBy_eq (h : At s start rest) :
    fractionBy s start = .ok (start + (fraction rest).length) := by
  rw [fractionBy, h.peek_eq, h.peek_tail_eq]
  match rest, h with
  | [], h => rfl
  | [point], h =>
    -- the zero that is seen behind the point is no digit
    show (if point = byte '.' ∧ Bytes.isDigit 0 = true then _ else _) = _
    rw [if_neg]
    · rfl
    · rintro ⟨-, hdigit⟩
      cases hdigit
  | point :: d :: more, h =>
    show (if point = byte '.' ∧ Bytes.isDigit d = true then _ else _)
      = Except.ok (start + (if point = byte '.' ∧ Bytes.isDigit d = true then _ else []).length)
    by_cases hfraction : point = byte '.' ∧ Bytes.isDigit d = true
    · rw [if_pos hfraction, if_pos hfraction, h.tail.skip_while rfl, List.length_cons]
      congr 1
      omega
    · rw [if_neg hfraction, if_neg hfraction]
      rfl

section OneLine

variable (hline : b ≠ Bytes.newline) (hquote : b ≠ Bytes.quoteMark)
include hline hquote

/-- A lexeme that is no newline and no string ends on the line where it starts. -/
theorem positioned_next {more : Bytes} {lexeme : Lexeme} (h : next b rest = .ok (lexeme, more))
    (line : Nat) :
    positioned line start (next b rest)
      = .ok (tokenOn line lexeme, start + lexeme.text.length, line) := by
  rw [h, positioned, newlines_of_next h hline hquote, Nat.add_zero]

/-- A lexeme whose value is nil is a slice of the text with its kind. -/
theorem plainBy_eq {text more : Bytes} {kind : TokenKind} (h : At s start (text ++ more))
    (hnext : next b rest = .ok (plain text kind, more)) (line : Nat) :
    plainBy s line start (start + text.length) kind
      = .ok (positioned line start (next b rest)) := by
  rw [positioned_next hline hquote hnext, plainBy, h.slice_eq]
  rfl

theorem numberBy_eq (hb : Bytes.isDigit b = true) (h : At s start (b :: rest)) (line : Nat) :
    numberBy s line start = .ok (positioned line start (next b rest)) := by
  have hwhole : At s (start + 1)
      (rest.takeWhile Bytes.isDigit ++ rest.dropWhile Bytes.isDigit) := by
    rw [List.takeWhile_append_dropWhile]
    exact h.tail
  rw [positioned_next hline hquote (next_digit hb rest)]
  obtain ⟨-, hsplit⟩ := matches_number hb rest
  generalize htext : b :: rest.takeWhile Bytes.isDigit ++ fraction (rest.dropWhile Bytes.isDigit)
    = text at hsplit ⊢
  have hstop : start + 1 + (rest.takeWhile Bytes.isDigit).length
      + (fraction (rest.dropWhile Bytes.isDigit)).length = start + text.length := by
    rw [← htext]
    simp only [List.length_append, List.length_cons]
    omega
  rw [numberBy, h.tail.skip_while rfl, ok_bind, fractionBy_eq hwhole.behind, ok_bind, hstop]
  rw [hsplit] at h
  rw [h.slice_eq]
  rfl

theorem wordBy_eq (hb : Bytes.isWordStart b = true) (h : At s start (b :: rest)) (line : Nat) :
    wordBy s line start = .ok (positioned line start (next b rest)) := by
  have hsplit : b :: rest
      = (b :: rest.takeWhile Bytes.isWordPart) ++ rest.dropWhile Bytes.isWordPart := by
    rw [List.cons_append, List.takeWhile_append_dropWhile]
  have hstop : start + 1 + (rest.takeWhile Bytes.isWordPart).length
      = start + (b :: rest.takeWhile Bytes.isWordPart).length := by
    rw [List.length_cons]
    omega
  rw [wordBy, h.tail.skip_while rfl, ok_bind, hstop]
  rw [hsplit] at h
  rw [h.slice_eq, ok_bind]
  exact plainBy_eq hline hquote h (next_wordStart hb rest) line

theorem pickBy_eq {long short : TokenKind} (hb : (b, long, short) ∈ comparisons)
    (h : At s start (b :: rest)) (line : Nat) :
    pickBy s line start long short = .ok (positioned line start (next b rest)) := by
  have hnext := next_comparison hb rest
  have hshort : At s start ([b] ++ rest) := h
  rw [pickBy, h.tail.follows_eq, ok_bind]
  rcases rest with _ | ⟨c, more⟩
  · exact plainBy_eq hline hquote hshort hnext line
  by_cases hc : c = byte '='
  · subst hc
    have hlong : At s start ([b, byte '='] ++ more) := h
    exact plainBy_eq hline hquote hlong hnext line
  · have hno : (some c == some (byte '=')) = false := by simpa using hc
    simp only [hc, if_false] at hnext
    show (if (some c == some (byte '=')) = true then _ else _) = _
    rw [hno]
    exact plainBy_eq hline hquote hshort hnext line

end OneLine

theorem slashBy_eq (h : At s start (byte '/' :: rest)) (line : Nat) :
    slashBy s line start = .ok (positioned line start (next (byte '/') rest)) := by
  have hline : byte '/' ≠ Bytes.newline := by decide
  have hquote : byte '/' ≠ Bytes.quoteMark := by decide
  have hnext := next_slash rest
  have hslash : At s start ([byte '/'] ++ rest) := h
  rw [slashBy, h.tail.follows_eq, ok_bind]
  rcases rest with _ | ⟨c, more⟩
  · exact plainBy_eq hline hquote hslash hnext line
  by_cases hc : c = byte '/'
  · subst hc
    have hrun : (byte '/' :: more).takeWhile (· != Bytes.newline)
        = byte '/' :: more.takeWhile (· != Bytes.newline) :=
      List.takeWhile_cons_of_pos (by decide)
    simp only [if_true] at hnext
    rw [positioned_next hline hquote hnext]
    show (skip s _ (start + 1 + 1) >>= _) = _
    rw [h.tail.tail.skip_until, ok_bind, hrun]
    have hstop : ∀ n, start + 1 + 1 + n = start + (n + 1 + 1) := by
      intro n
      omega
    simp only [List.length_cons]
    rw [hstop]
    rfl
  · have hno : (some c == some (byte '/')) = false := by simpa using hc
    simp only [hc, if_false] at hnext
    show (if (some c == some (byte '/')) = true then _ else _) = _
    rw [hno]
    exact plainBy_eq hline hquote hslash hnext line

/-- **The same is cut off by positions**, and all of them are inside the text. A line is added at a
newline, on its own or in a string, and that is all there is to count. -/
theorem cutBy_eq (h : At s start (b :: rest)) (line : Nat) :
    cutBy s line start = .ok (positioned line start (next b rest)) := by
  rw [cutBy, h.item_eq, ok_bind]
  by_cases hblank : isBlank b = true
  · have hcount : (if b = Bytes.newline then line + 1 else line)
        = line + Bytes.newlines [b] := by
      simp only [Bytes.newlines, List.count_singleton, beq_iff_eq]
      split <;> rfl
    rw [if_pos hblank, next_blank hblank, hcount]
    rfl
  have hline : b ≠ Bytes.newline := by
    rintro rfl
    exact hblank (by decide)
  by_cases hquote : b = Bytes.quoteMark
  · subst hquote
    exact stringBy_eq h line
  by_cases hdigit : Bytes.isDigit b = true
  · rw [if_neg hblank, if_neg hquote, if_pos hdigit]
    exact numberBy_eq hline hquote hdigit h line
  by_cases hword : Bytes.isWordStart b = true
  · rw [if_neg hblank, if_neg hquote, if_neg hdigit, if_pos hword]
    exact wordBy_eq hline hquote hword h line
  by_cases hslash : b = byte '/'
  · subst hslash
    exact slashBy_eq h line
  rw [if_neg hblank, if_neg hquote, if_neg hdigit, if_neg hword, if_neg hslash]
  cases hcomparison : comparisons.lookup b with
  | some kinds => exact pickBy_eq hline hquote (mem_of_lookup hcomparison) h line
  | none =>
    have hrest : At s (start + 1) (rest ++ []) := by
      rw [List.append_nil]
      exact h.tail
    cases hmark : marks.lookup b with
    | some kind =>
      have hone : At s start ([b] ++ rest) := h
      exact plainBy_eq hline hquote hone (next_mark (mem_of_lookup hmark) rest) line
    | none =>
      unfold next
      rw [if_neg hblank, if_neg hquote, if_neg hdigit, if_neg hword, if_neg hslash, hcomparison,
        hmark]
      show (slice s (start + 1) s.length >>= _) = _
      rw [h.tail.length_eq, hrest.slice_eq]
      rfl

end Cuts

end Lexeme

namespace Token

/-- The tokens from an index on, behind the ones in `acc`, which are in reverse order. -/
def scanFromBy (s : Bytes) (acc : List Token) (line start : Nat) :
    Checked (Except Diagnostic (List Token)) :=
  if s.length ≤ start then .ok (.ok (endMark line :: acc).reverse)
  else
    match Lexeme.cutBy s line start with
    | .error crash => .error crash
    | .ok (.error d) => .ok (.error d)
    | .ok (.ok (token?, stop, line)) =>
      if start < stop then scanFromBy s (token?.toList ++ acc) line stop
      else .error (.stalled start)
termination_by s.length - start

/-- The tokens of a source, by positions. -/
def scanBy (source : Bytes) : Checked (Except Diagnostic (List Token)) := scanFromBy source [] 1 0

theorem reverse_append_ofMatch (tokens : List Token) (line : Nat) (lexeme : Lexeme) :
    (tokens ++ ofMatch line lexeme.text lexeme.token?).reverse
      = (lexeme.tokenOn line).toList ++ tokens.reverse := by
  rw [List.reverse_append, Lexeme.tokenOn]
  cases lexeme.token? <;> rfl

/-- The loop goes through the same places. -/
theorem scanFromBy_eq {s rest : Bytes} {start : Nat} (h : At s start rest) (tokens : List Token)
    (line : Nat) :
    scanFromBy s tokens.reverse line start = .ok (scanFrom tokens.reverse line rest) := by
  -- by the length of the rest, which every cut makes shorter
  induction hn : rest.length using Nat.strongRecOn generalizing rest start tokens line with
  | ind n ih =>
    have hlen := h.length_eq
    rw [scanFromBy]
    rcases rest with _ | ⟨b, rest⟩
    · rw [List.length_nil, Nat.add_zero] at hlen
      rw [if_pos (Nat.le_of_eq hlen), scanFrom]
    rw [List.length_cons] at hlen hn
    rw [if_neg (by omega), Lexeme.cutBy_eq h]
    cases hnext : Lexeme.next b rest with
    | error trouble => rw [scanFrom_error hnext, Lexeme.positioned]
    | ok cut =>
      obtain ⟨lexeme, more⟩ := cut
      obtain ⟨hmatch, hsplit⟩ := Lexeme.matches_of_next hnext
      have hpos : 0 < lexeme.text.length := List.length_pos_iff.2 hmatch.ne_nil
      have hmore : more.length < n := by
        have hle := Lexeme.length_next_le hnext
        omega
      rw [hsplit] at h
      rw [scanFrom_ok hnext, Lexeme.positioned]
      simp only
      rw [if_pos (by omega), ← reverse_append_ofMatch, ih _ hmore h.behind _ _ rfl]

/-- **Scanning by positions is scanning.** -/
theorem scanBy_eq (source : Bytes) : scanBy source = .ok (scan source) :=
  scanFromBy_eq (At.start source) [] 1

end Token

/-! ## Tokens by positions -/

namespace Tree

/-- The line of the last token. -/
def lastLineBy (tokens : List Token) : Checked Int :=
  if tokens.length = 0 then .ok 1
  else do
    let last ← item tokens (tokens.length - 1)
    return last.line

/-- The token at a position, an end mark behind the last one. -/
def currentBy (tokens : List Token) (i : Nat) : Checked Token :=
  if tokens.length ≤ i then do
    let line ← lastLineBy tokens
    return .endMark line
  else item tokens i

/-- The token in front of a position, an end mark if there is none. -/
def previousBy (tokens : List Token) (i : Nat) : Checked Token :=
  if i = 0 ∨ tokens.length < i then do
    let line ← lastLineBy tokens
    return .endMark line
  else item tokens (i - 1)

theorem lastLineBy_eq (tokens : List Token) : lastLineBy tokens = .ok (endLineOf tokens) := by
  rcases List.eq_nil_or_concat tokens with rfl | ⟨front, last, rfl⟩
  · rfl
  · simp [lastLineBy, endLineOf, item]

/-- Wherever the cursor of the top-down procedures stands, looking at its token is safe. -/
theorem currentBy_eq (tokens : List Token) (i : Nat) :
    currentBy tokens i = .ok (Descent.current tokens i) := by
  unfold currentBy Descent.current
  split
  · next hle =>
    rw [dif_neg (Nat.not_lt.2 hle), lastLineBy_eq]
    rfl
  · next hlt =>
    have hlt := Nat.lt_of_not_le hlt
    rw [dif_pos hlt, item_of_lt hlt]

/-- So is looking at the token that it went past last. -/
theorem previousBy_eq (tokens : List Token) (i : Nat) :
    previousBy tokens i = .ok (Descent.previous tokens i) := by
  unfold previousBy Descent.previous
  split
  · next h =>
    rw [dif_neg (by omega), lastLineBy_eq]
    rfl
  · next h =>
    have hlt : i - 1 < tokens.length := by omega
    rw [dif_pos (by omega), item_of_lt hlt]

end Tree

/-! ## Evaluating by accessors -/

namespace Value

/-- An operator in front of a value, whose type is looked at first. -/
def applyUnaryBy (op : Token) (v : Value) : Checked (Except EvalFault Value) :=
  match op.kind with
  | .bang => .ok (.ok (.bool (!v.truthy)))
  | .minus =>
    if v.type ≠ .number then .ok (.error (.notNumber op v.type))
    else do
      let x ← Checked.number v
      return .ok (.number (-x))
  | kind => .ok (.error (.noUnary kind))

/-- A sum, by the types of both values. -/
def addBy (op : Token) (left right : Value) : Checked (Except EvalFault Value) :=
  if left.type = .number ∧ right.type = .number then do
    let x ← Checked.number left
    let y ← Checked.number right
    return .ok (.number (x + y))
  else if left.type = .string ∧ right.type = .string then do
    let s ← Checked.string left
    let t ← Checked.string right
    return .ok (.string (s ++ t))
  else .ok (.error (.notAddable op left.type right.type))

/-- A function of two numbers, by the types of both values. -/
def onNumbersBy (op : Token) (f : Float → Float → Value) (left right : Value) :
    Checked (Except EvalFault Value) :=
  if left.type = .number ∧ right.type = .number then do
    let x ← Checked.number left
    let y ← Checked.number right
    return .ok (f x y)
  else .ok (.error (.notNumbers op left.type right.type))

/-- An operator between two values. -/
def applyBinaryBy (op : Token) (left right : Value) : Checked (Except EvalFault Value) :=
  match op.kind with
  | .plus => addBy op left right
  | .minus => onNumbersBy op (fun x y => .number (x - y)) left right
  | .star => onNumbersBy op (fun x y => .number (x * y)) left right
  | .slash => onNumbersBy op (fun x y => .number (x / y)) left right
  | .greater => onNumbersBy op (fun x y => .bool (y < x)) left right
  | .greaterEqual => onNumbersBy op (fun x y => .bool (y ≤ x)) left right
  | .less => onNumbersBy op (fun x y => .bool (x < y)) left right
  | .lessEqual => onNumbersBy op (fun x y => .bool (x ≤ y)) left right
  | .equalEqual => .ok (.ok (.bool (left.equals right)))
  | .bangEqual => .ok (.ok (.bool (!left.equals right)))
  | kind => .ok (.error (.noBinary kind))

theorem applyUnaryBy_eq (op : Token) (v : Value) :
    v.applyUnaryBy op = .ok (v.applyUnary op) := by
  unfold applyUnaryBy applyUnary
  generalize op.kind = kind
  cases kind with
  | minus => cases v <;> rfl
  | _ => rfl

theorem addBy_eq (op : Token) (left right : Value) :
    addBy op left right = .ok (left.add op right) := by
  cases left <;> cases right <;> rfl

theorem onNumbersBy_eq (op : Token) (f : Float → Float → Value) (left right : Value) :
    onNumbersBy op f left right = .ok (left.onNumbers op f right) := by
  cases left <;> cases right <;> rfl

theorem applyBinaryBy_eq (op : Token) (left right : Value) :
    applyBinaryBy op left right = .ok (left.applyBinary op right) := by
  unfold applyBinaryBy applyBinary
  generalize op.kind = kind
  cases kind with
  | plus => exact addBy_eq op left right
  | minus | star | slash | greater | greaterEqual | less | lessEqual =>
    exact onNumbersBy_eq op _ left right
  | _ => rfl

end Value

/-- The value of a tree, by accessors. -/
def Tree.evalBy : Tree → Checked (Except EvalFault Value)
  | missing => .ok (.error .noTree)
  | literal v => .ok (.ok v)
  | group inner => inner.evalBy
  | unary op operand => do
    match ← operand.evalBy with
    | .error fault => return .error fault
    | .ok v => v.applyUnaryBy op
  | binary left op right => do
    match ← left.evalBy with
    | .error fault => return .error fault
    | .ok l =>
      match ← right.evalBy with
      | .error fault => return .error fault
      | .ok r => l.applyBinaryBy op r

/-- **Evaluating by accessors is evaluating.** Each accessor is used behind a test of the type. -/
theorem Tree.evalBy_eq (t : Tree) : t.evalBy = .ok t.eval := by
  induction t with
  | missing => rfl
  | literal v => rfl
  | group inner ih => exact ih
  | unary op operand ih =>
    rw [evalBy, eval, ih, ok_bind]
    cases operand.eval with
    | error fault => rfl
    | ok v => exact v.applyUnaryBy_eq op
  | binary left op right ihl ihr =>
    rw [evalBy, eval, ihl, ok_bind]
    cases left.eval with
    | error fault => rfl
    | ok l =>
      simp only
      rw [ihr, ok_bind]
      cases right.eval with
      | error fault => rfl
      | ok r => exact Value.applyBinaryBy_eq op l r

/-! ## Whole runs -/

namespace Session

open Reckoner.Tree

/-- Evaluates trees in order, by accessors. -/
def evaluateOntoBy (done : List Outcome) (patience : Patience) :
    List Tree → Checked (Run × Patience)
  | [] => .ok (⟨done.reverse, none⟩, patience)
  | t :: rest =>
    match patience.ask with
    | (some cause, patience) => .ok (⟨done.reverse, some (.interrupted cause)⟩, patience)
    | (none, patience) => do
      match ← t.evalBy with
      | .error e => return (⟨done.reverse, some e.fault⟩, patience)
      | .ok v => evaluateOntoBy (⟨t.text, v⟩ :: done) patience rest

/-- Runs a source, by positions and accessors. -/
def runBy (patience : Patience) (source : Bytes) : Checked (Run × Patience) := do
  match ← Token.scanBy source with
  | .error d => return (⟨[], some (.diagnostic d)⟩, patience)
  | .ok tokens =>
    let found := parseProgram tokens
    match Fault.join? (found.diagnostics.map .diagnostic) with
    | some fault => return (⟨[], some fault⟩, patience)
    | none => evaluateOntoBy [] patience found.trees

/-- The value of a source that holds a single expression, by positions and accessors. -/
def evaluateBy (source : Bytes) : Checked (Except Fault Value) := do
  match ← Token.scanBy source with
  | .error d => return .error (.diagnostic d)
  | .ok tokens =>
    match parseSingle tokens with
    | .error d => return .error (.diagnostic d)
    | .ok t =>
      match ← t.evalBy with
      | .error e => return .error e.fault
      | .ok v => return .ok v

theorem evaluateOntoBy_eq (done : List Outcome) (patience : Patience) (trees : List Tree) :
    evaluateOntoBy done patience trees = .ok (evaluateOnto done patience trees) := by
  induction trees generalizing done patience with
  | nil => rfl
  | cons t rest ih =>
    rw [evaluateOntoBy, evaluateOnto]
    rcases patience.ask with ⟨_ | cause, patience⟩
    · simp only
      rw [t.evalBy_eq, ok_bind]
      cases t.eval with
      | error e => rfl
      | ok v => exact ih _ _
    · rfl

theorem runBy_eq (patience : Patience) (source : Bytes) :
    runBy patience source = .ok (run patience source) := by
  rw [runBy, Token.scanBy_eq, ok_bind, run]
  cases hscan : Token.scan source with
  | error d => simp only [parse, hscan]; rfl
  | ok tokens =>
    simp only [parse, hscan]
    cases Fault.join? ((parseProgram tokens).diagnostics.map .diagnostic) with
    | some fault => rfl
    | none => exact evaluateOntoBy_eq [] patience _

theorem evaluateBy_eq (source : Bytes) : evaluateBy source = .ok (evaluate source) := by
  rw [evaluateBy, Token.scanBy_eq, ok_bind, evaluate]
  cases Token.scan source with
  | error d => rfl
  | ok tokens =>
    simp only
    cases parseSingle tokens with
    | error d => rfl
    | ok t =>
      simp only
      rw [t.evalBy_eq, ok_bind]
      cases t.eval with
      | error e => rfl
      | ok v => rfl

/-! ## Which faults there are -/

/-- The faults that a run is known by: the diagnostic of the scanner, diagnostics of the grammar
joined together, an error of types, or the interruption as such. -/
inductive Reported (patience : Patience) : Option Fault → Prop
  | nothing : Reported patience none
  | scanning {d : Diagnostic} (h : d.kind = .unexpectedCharacter ∨ d.kind = .unterminatedString) :
      Reported patience (some (.diagnostic d))
  | grammar {ds : List Diagnostic} (hne : ds ≠ [])
      (h : ∀ d ∈ ds, d.kind = .expectedToken ∨ d.kind = .unexpectedExpression) :
      Reported patience (some (.joined (ds.map .diagnostic)))
  | types {d : Diagnostic} (h : d.kind = .typeError) : Reported patience (some (.diagnostic d))
  | interruption (h : patience.left ≠ none) :
      Reported patience (some (.interrupted patience.cause))

/-- The answers to a single expression: a value, or one diagnostic of the same kinds. -/
inductive Answered : Except Fault Value → Prop
  | value (v : Value) : Answered (.ok v)
  | refused {d : Diagnostic} (h : d.kind ∈ DiagnosticKind.all) : Answered (.error (.diagnostic d))

theorem kind_of_scan {source : Bytes} {d : Diagnostic} (h : Token.scan source = .error d) :
    d.kind = .unexpectedCharacter ∨ d.kind = .unterminatedString := by
  obtain ⟨_, _, _, _, trouble, -, -, -, rfl⟩ := Token.scan_eq_error_iff.1 h
  cases trouble with
  | unexpectedCharacter c => exact .inl rfl
  | unterminatedString => exact .inr rfl

theorem kind_of_blames {d : Diagnostic} {tok : Token} (h : Blames d tok) :
    d.kind = .expectedToken ∨ d.kind = .unexpectedExpression := by
  obtain ⟨wanted, rfl⟩ := h
  cases wanted with
  | expression => exact .inr rfl
  | _ => exact .inl rfl

theorem kind_of_clash {node : Tree} {d : Diagnostic} (h : Clash node d) : d.kind = .typeError := by
  cases h <;> rfl

theorem run_reported (patience : Patience) (source : Bytes) :
    Reported patience (run patience source).1.fault := by
  have hends := run_ends patience source
  generalize (run patience source).1.fault = fault at hends ⊢
  cases hends with
  | clean => exact .nothing
  | unscanned hscan => exact .scanning (kind_of_scan hscan)
  | @ungrammatical tokens _ hne =>
    obtain ⟨blamed, -, hblames⟩ := exists_blamed (endLineOf tokens) tokens
    refine .grammar hne ?_
    intro d hd
    obtain ⟨tok, -, hd⟩ := exists_blames_of_mem hblames d hd
    exact kind_of_blames hd
  | clash _ _ hclash => exact .types (kind_of_clash hclash)
  | interrupted hleft => exact .interruption hleft

theorem evaluate_answered (source : Bytes) : Answered (evaluate source) := by
  rw [evaluate]
  cases hscan : Token.scan source with
  | error d =>
    apply Answered.refused
    rcases kind_of_scan hscan with hkind | hkind <;> rw [hkind] <;> decide
  | ok tokens =>
    simp only
    cases hsingle : parseSingle tokens with
    | error d =>
      obtain ⟨tok, -, hblames⟩ := blames_of_single hsingle
      apply Answered.refused
      rcases kind_of_blames hblames with hkind | hkind <;> rw [hkind] <;> decide
    | ok t =>
      obtain ⟨_, _, -, hderives, -⟩ := single_eq_ok_iff.1 hsingle
      cases heval : t.eval with
      | ok v =>
        simp only [heval]
        exact .value v
      | error e =>
        obtain ⟨node, -, d, hclash, hd⟩ := clash_of_eval hderives.proper heval
        simp only [heval, hd]
        apply Answered.refused
        rw [kind_of_clash hclash]
        decide

/-- **Sources never cause a failure of the library itself.** With every position and every accessor
checked, a run goes as it does without checks, for every source and caller; so does the evaluation
of a single expression; and a cursor over tokens may stand anywhere, where it sees what the
top-down procedures see. What is reported is a
diagnostic of the scanner, diagnostics of the grammar, an error of types, or the interruption; there
is never an operator or a tree that the evaluator does not know. -/
theorem run_safe (patience : Patience) (source : Bytes) :
    (runBy patience source = .ok (run patience source) ∧
      Reported patience (run patience source).1.fault) ∧
    (evaluateBy source = .ok (evaluate source) ∧ Answered (evaluate source)) ∧
    ∀ tokens i, currentBy tokens i = .ok (current (endLineOf tokens) (tokens.drop i)) ∧
      currentBy tokens i = .ok (Descent.current tokens i) ∧
      previousBy tokens i = .ok (Descent.previous tokens i) :=
  ⟨⟨runBy_eq patience source, run_reported patience source⟩,
    ⟨evaluateBy_eq source, evaluate_answered source⟩,
    fun tokens i =>
      ⟨Descent.current_eq_drop tokens i ▸ currentBy_eq tokens i, currentBy_eq tokens i,
        previousBy_eq tokens i⟩⟩

end Session

end Reckoner
