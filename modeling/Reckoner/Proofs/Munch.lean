import Reckoner.Token.Scan
import Reckoner.Proofs.Utf8

/-!
# Reckoner.Proofs.Munch — scanning takes the longest match

The lexemes of a source are given here by patterns: fixed spellings, comments, blanks, strings,
numbers and words (`Matches`). `Lexeme.next` does not try them all. It decides by the first byte, and
then by one or two more, which pattern is meant. It cuts off the longest match all the same:

* `next_eq_ok_iff` — it cuts off the lexeme that matches a longest prefix of the text;
* `next_eq_error_iff` — it gives up exactly where no prefix matches any pattern.

The first byte tells which arm of `next` is taken (`first_cases`); each arm cuts off a match
(`matches_of_next`), and a match of any pattern is no longer than what its arm cuts off
(`covers_of_matches`).
-/

namespace Reckoner.Lexeme

/-! ### The patterns -/

/-- The spellings that stand for themselves. -/
def spellings : List (Bytes × TokenKind) := [
  ([byte '('], .leftParen), ([byte ')'], .rightParen), ([byte '\x7b'], .leftBrace),
  ([byte '\x7d'], .rightBrace), ([byte ','], .comma), ([byte '.'], .dot), ([byte '-'], .minus),
  ([byte '+'], .plus), ([byte ';'], .semicolon), ([byte '*'], .star), ([byte '/'], .slash),
  ([byte '!', byte '='], .bangEqual), ([byte '=', byte '='], .equalEqual),
  ([byte '<', byte '='], .lessEqual), ([byte '>', byte '='], .greaterEqual),
  ([byte '!'], .bang), ([byte '='], .equal), ([byte '<'], .less), ([byte '>'], .greater)]

/-- A run of one digit at least. -/
def Digits (s : Bytes) : Prop := s ≠ [] ∧ ∀ b ∈ s, Bytes.isDigit b = true

/-- `Matches text token?`: the text as a whole matches a pattern, which gives this token or none. -/
inductive Matches : Bytes → Option (TokenKind × Value) → Prop
  | spelling {text : Bytes} {kind : TokenKind} (h : (text, kind) ∈ spellings) :
      Matches text (some (kind, .nil))
  | comment {body : Bytes} (h : Bytes.newline ∉ body) : Matches (byte '/' :: byte '/' :: body) none
  | blank {b : UInt8} (h : b ∈ [byte ' ', byte '\t', byte '\r', byte '\n']) : Matches [b] none
  | string {body : Bytes} (h : Bytes.quoteMark ∉ body) :
      Matches (Bytes.quoteMark :: (body ++ [Bytes.quoteMark])) (some (.string, .string body))
  | whole {digits : Bytes} (h : Digits digits) :
      Matches digits (some (.number, .number (Number.ofDecimal digits)))
  | decimal {digits places : Bytes} (h : Digits digits) (hplaces : Digits places) :
      Matches (digits ++ byte '.' :: places)
        (some (.number, .number (Number.ofDecimal (digits ++ byte '.' :: places))))
  | word {b : UInt8} {more : Bytes} (h : Bytes.isWordStart b = true)
      (hmore : ∀ c ∈ more, Bytes.isWordPart c = true) :
      Matches (b :: more) (some (TokenKind.ofWord (b :: more), .nil))

/-- A match takes one byte at least. -/
theorem Matches.ne_nil {text : Bytes} {token? : Option (TokenKind × Value)}
    (h : Matches text token?) : text ≠ [] := by
  cases h with
  | spelling h =>
    rintro rfl
    exact absurd h (by simp [spellings])
  | comment => exact List.cons_ne_nil _ _
  | blank => exact List.cons_ne_nil _ _
  | string => exact List.cons_ne_nil _ _
  | whole h => exact h.1
  | decimal => simp
  | word => exact List.cons_ne_nil _ _

/-- The text starts with a match, and with no longer one. -/
def LongestMatch (s text : Bytes) (token? : Option (TokenKind × Value)) : Prop :=
  Matches text token? ∧ text <+: s ∧
    ∀ text' token?', Matches text' token?' → text' <+: s → text'.length ≤ text.length

/-- No pattern matches at the start of the text. -/
def Unmatched (s : Bytes) : Prop := ∀ text token?, Matches text token? → ¬ text <+: s

/-! ### The arms of `next`, by the first byte -/

theorem isBlank_iff (b : UInt8) :
    isBlank b = true ↔ b.toNat = 32 ∨ b.toNat = 13 ∨ b.toNat = 9 ∨ b.toNat = 10 := by
  simp [isBlank, Bytes.newline, ← UInt8.toNat_inj, or_assoc]

theorem isBlank_iff_mem (b : UInt8) :
    isBlank b = true ↔ b ∈ [byte ' ', byte '\t', byte '\r', byte '\n'] := by
  rw [isBlank_iff]
  show _ ↔ b ∈ [32, 9, 13, 10]
  simp only [List.mem_cons, List.not_mem_nil, or_false, ← UInt8.toNat_inj, UInt8.reduceToNat]
  omega

theorem isDigit_iff (b : UInt8) : Bytes.isDigit b = true ↔ 48 ≤ b.toNat ∧ b.toNat ≤ 57 := by
  simp [Bytes.isDigit, UInt8.le_iff_toNat_le]

theorem isWordStart_iff (b : UInt8) :
    Bytes.isWordStart b = true ↔
      97 ≤ b.toNat ∧ b.toNat ≤ 122 ∨ 65 ≤ b.toNat ∧ b.toNat ≤ 90 ∨ b.toNat = 95 := by
  simp [Bytes.isWordStart, UInt8.le_iff_toNat_le, ← UInt8.toNat_inj, or_assoc]

theorem next_blank {b : UInt8} (hb : isBlank b = true) (rest : Bytes) :
    next b rest = .ok (⟨[b], none⟩, rest) := by
  unfold next
  rw [if_pos hb]

theorem next_quote (rest : Bytes) :
    next Bytes.quoteMark rest =
      match rest.dropWhile (· != Bytes.quoteMark) with
      | [] => .error .unterminatedString
      | closing :: more =>
        .ok (⟨Bytes.quoteMark :: rest.takeWhile (· != Bytes.quoteMark) ++ [closing],
          some (.string, .string (rest.takeWhile (· != Bytes.quoteMark)))⟩, more) :=
  rfl

theorem next_digit {b : UInt8} (hb : Bytes.isDigit b = true) (rest : Bytes) :
    next b rest =
      let text := b :: rest.takeWhile Bytes.isDigit ++ fraction (rest.dropWhile Bytes.isDigit)
      .ok (⟨text, some (.number, .number (Number.ofDecimal text))⟩,
        (rest.dropWhile Bytes.isDigit).drop (fraction (rest.dropWhile Bytes.isDigit)).length) := by
  have hrange := (isDigit_iff b).1 hb
  have hblank : ¬ isBlank b = true := by
    rw [isBlank_iff]
    omega
  have hquote : b ≠ Bytes.quoteMark := by
    rintro rfl
    exact absurd hb (by decide)
  unfold next
  rw [if_neg hblank, if_neg hquote, if_pos hb]

theorem next_wordStart {b : UInt8} (hb : Bytes.isWordStart b = true) (rest : Bytes) :
    next b rest =
      let word := b :: rest.takeWhile Bytes.isWordPart
      .ok (plain word (TokenKind.ofWord word), rest.dropWhile Bytes.isWordPart) := by
  have hrange := (isWordStart_iff b).1 hb
  have hblank : ¬ isBlank b = true := by
    rw [isBlank_iff]
    omega
  have hquote : b ≠ Bytes.quoteMark := by
    rintro rfl
    exact absurd hb (by decide)
  have hdigit : ¬ Bytes.isDigit b = true := by
    rw [isDigit_iff]
    omega
  unfold next
  rw [if_neg hblank, if_neg hquote, if_neg hdigit, if_pos hb]

theorem next_slash (rest : Bytes) :
    next (byte '/') rest =
      match rest with
      | c :: _ =>
        if c = byte '/' then
          .ok (⟨byte '/' :: rest.takeWhile (· != Bytes.newline), none⟩,
            rest.dropWhile (· != Bytes.newline))
        else .ok (plain [byte '/'] .slash, rest)
      | [] => .ok (plain [byte '/'] .slash, rest) :=
  rfl

theorem next_comparison {b : UInt8} {long short : TokenKind}
    (hb : (b, long, short) ∈ comparisons) (rest : Bytes) :
    next b rest =
      match rest with
      | c :: more =>
        if c = byte '=' then .ok (plain [b, c] long, more) else .ok (plain [b] short, rest)
      | [] => .ok (plain [b] short, rest) := by
  simp only [comparisons, List.mem_cons, Prod.mk.injEq, List.not_mem_nil, or_false] at hb
  obtain ⟨rfl, rfl, rfl⟩ | ⟨rfl, rfl, rfl⟩ | ⟨rfl, rfl, rfl⟩ | ⟨rfl, rfl, rfl⟩ := hb <;> rfl

theorem next_mark {b : UInt8} {kind : TokenKind} (hb : (b, kind) ∈ marks) (rest : Bytes) :
    next b rest = .ok (plain [b] kind, rest) := by
  simp only [marks, List.mem_cons, Prod.mk.injEq, List.not_mem_nil, or_false] at hb
  obtain ⟨rfl, rfl⟩ | ⟨rfl, rfl⟩ | ⟨rfl, rfl⟩ | ⟨rfl, rfl⟩ | ⟨rfl, rfl⟩ | ⟨rfl, rfl⟩ |
    ⟨rfl, rfl⟩ | ⟨rfl, rfl⟩ | ⟨rfl, rfl⟩ | ⟨rfl, rfl⟩ := hb <;> rfl

theorem mem_of_lookup {κ α : Type} [BEq κ] [LawfulBEq κ] {l : List (κ × α)} {k : κ} {a : α}
    (h : l.lookup k = some a) : (k, a) ∈ l := by
  obtain ⟨front, back, rfl, -⟩ := List.lookup_eq_some_iff.1 h
  exact List.mem_append_right front List.mem_cons_self

/-- The first byte decides: it is of one of seven sorts, or it starts no lexeme at all. -/
theorem first_cases (b : UInt8) :
    isBlank b = true ∨ b = Bytes.quoteMark ∨ Bytes.isDigit b = true ∨ Bytes.isWordStart b = true ∨
      b = byte '/' ∨ (∃ long short, (b, long, short) ∈ comparisons) ∨ (∃ kind, (b, kind) ∈ marks) ∨
      b ≠ Bytes.quoteMark ∧
        ∀ rest, next b rest = .error (.unexpectedCharacter (Utf8.next b rest).1.char) := by
  by_cases hblank : isBlank b = true
  · exact .inl hblank
  by_cases hquote : b = Bytes.quoteMark
  · exact .inr (.inl hquote)
  by_cases hdigit : Bytes.isDigit b = true
  · exact .inr (.inr (.inl hdigit))
  by_cases hword : Bytes.isWordStart b = true
  · exact .inr (.inr (.inr (.inl hword)))
  by_cases hslash : b = byte '/'
  · exact .inr (.inr (.inr (.inr (.inl hslash))))
  refine .inr (.inr (.inr (.inr (.inr ?_))))
  cases hcomparison : comparisons.lookup b with
  | some kinds => exact .inl ⟨kinds.1, kinds.2, mem_of_lookup hcomparison⟩
  | none =>
    refine .inr ?_
    cases hmark : marks.lookup b with
    | some kind => exact .inl ⟨kind, mem_of_lookup hmark⟩
    | none =>
      refine .inr ⟨hquote, fun rest => ?_⟩
      unfold next
      rw [if_neg hblank, if_neg hquote, if_neg hdigit, if_neg hword, if_neg hslash, hcomparison,
        hmark]

/-! ### What is cut off is a match -/

/-- The marks, the comparisons and the slash are spellings. -/
theorem mem_spellings :
    (∀ c ∈ comparisons, ([c.1, byte '='], c.2.1) ∈ spellings ∧ ([c.1], c.2.2) ∈ spellings) ∧
      (∀ m ∈ marks, ([m.1], m.2) ∈ spellings) ∧ ([byte '/'], .slash) ∈ spellings := by
  decide

/-- There are no other spellings. -/
theorem of_mem_spellings :
    ∀ entry ∈ spellings, entry = ([byte '/'], .slash) ∨
      (∃ c ∈ comparisons, entry = ([c.1, byte '='], c.2.1) ∨ entry = ([c.1], c.2.2)) ∨
      ∃ m ∈ marks, entry = ([m.1], m.2) := by
  decide

theorem takeWhile_pos {p : UInt8 → Bool} {s : Bytes} : ∀ b ∈ s.takeWhile p, p b = true :=
  List.all_eq_true.1 List.all_takeWhile

/-- Where a run ends in front of a byte, that byte does not belong to it. -/
theorem dropWhile_eq_cons {p : UInt8 → Bool} {s more : Bytes} {c : UInt8}
    (h : s.dropWhile p = c :: more) : p c = false ∧ s = s.takeWhile p ++ c :: more := by
  refine ⟨?_, by rw [← h, List.takeWhile_append_dropWhile]⟩
  have hne : s.dropWhile p ≠ [] := h ▸ List.cons_ne_nil c more
  have hhead := List.head_dropWhile_not p hne
  simpa only [h, List.head_cons] using hhead

/-- A fraction is a point and a run of digits, or nothing. -/
theorem fraction_cases (s : Bytes) :
    fraction s = [] ∨ ∃ places, Digits places ∧ fraction s = byte '.' :: places ∧
      byte '.' :: places <+: s := by
  unfold fraction
  split
  · next point d more =>
    split
    · next h =>
      obtain ⟨rfl, hd⟩ := h
      refine .inr ⟨(d :: more).takeWhile Bytes.isDigit, ⟨?_, takeWhile_pos⟩, rfl, ?_⟩
      · rw [List.takeWhile_cons_of_pos hd]
        exact List.cons_ne_nil _ _
      · exact List.cons_prefix_cons.2 ⟨rfl, List.takeWhile_prefix _⟩
    · exact .inl rfl
  · exact .inl rfl

theorem fraction_of_digits {places more : Bytes} (h : Digits places) :
    fraction (byte '.' :: (places ++ more))
      = byte '.' :: (places ++ more).takeWhile Bytes.isDigit := by
  obtain ⟨hne, hall⟩ := h
  rcases places with _ | ⟨d, places⟩
  · exact absurd rfl hne
  unfold fraction
  exact if_pos ⟨rfl, hall d List.mem_cons_self⟩

/-- A digit and the digits behind it. -/
theorem digits_run {b : UInt8} (hb : Bytes.isDigit b = true) (rest : Bytes) :
    Digits (b :: rest.takeWhile Bytes.isDigit) := by
  refine ⟨List.cons_ne_nil _ _, fun c hc => ?_⟩
  rcases List.mem_cons.1 hc with rfl | hc
  · exact hb
  · exact takeWhile_pos c hc

/-- A number with its fraction matches, and what follows it is left. -/
theorem matches_number {b : UInt8} (hb : Bytes.isDigit b = true) (rest : Bytes) :
    let text := b :: rest.takeWhile Bytes.isDigit ++ fraction (rest.dropWhile Bytes.isDigit)
    Matches text (some (.number, .number (Number.ofDecimal text))) ∧
      b :: rest = text ++
        (rest.dropWhile Bytes.isDigit).drop (fraction (rest.dropWhile Bytes.isDigit)).length := by
  intro text
  have hdigits := digits_run hb rest
  have hsplit : b :: rest = b :: rest.takeWhile Bytes.isDigit ++ rest.dropWhile Bytes.isDigit := by
    rw [List.cons_append, List.takeWhile_append_dropWhile]
  obtain hnone | ⟨places, hplaces, hfraction, hpre⟩ := fraction_cases (rest.dropWhile Bytes.isDigit)
  · simp only [text, hnone, List.append_nil]
    exact ⟨.whole hdigits, hsplit⟩
  · simp only [text, hfraction]
    refine ⟨.decimal hdigits hplaces, ?_⟩
    rw [List.append_assoc, List.prefix_iff_eq_append.1 hpre]
    exact hsplit

/-- **What is cut off is a match**, and nothing of the text is lost. -/
theorem matches_of_next {b : UInt8} {rest more : Bytes} {lexeme : Lexeme}
    (h : next b rest = .ok (lexeme, more)) :
    Matches lexeme.text lexeme.token? ∧ b :: rest = lexeme.text ++ more := by
  obtain ⟨hcomparisons, hmarks, hslash⟩ := mem_spellings
  obtain hb | rfl | hb | hb | rfl | ⟨long, short, hb⟩ | ⟨kind, hb⟩ | ⟨-, hb⟩ := first_cases b
  · rw [next_blank hb] at h
    cases h
    exact ⟨.blank ((isBlank_iff_mem b).1 hb), rfl⟩
  · rw [next_quote] at h
    split at h
    · cases h
    · next closing tail hdrop =>
      obtain ⟨hclosing, hsplit⟩ := dropWhile_eq_cons hdrop
      have hclosing : closing = Bytes.quoteMark := by simpa using hclosing
      have hbody : Bytes.quoteMark ∉ rest.takeWhile (· != Bytes.quoteMark) := by
        intro hmem
        exact absurd (takeWhile_pos _ hmem) (by decide)
      subst hclosing
      cases h
      refine ⟨.string hbody, ?_⟩
      rw [List.cons_append, List.cons_append, List.append_assoc]
      exact congrArg _ hsplit
  · rw [next_digit hb] at h
    cases h
    exact matches_number hb rest
  · rw [next_wordStart hb] at h
    cases h
    refine ⟨.word hb takeWhile_pos, ?_⟩
    rw [plain, List.cons_append, List.takeWhile_append_dropWhile]
  · rw [next_slash] at h
    split at h
    · next c tail =>
      split at h
      · next hc =>
        subst hc
        cases h
        have hbody : Bytes.newline ∉ tail.takeWhile (· != Bytes.newline) := by
          intro hmem
          exact absurd (takeWhile_pos _ hmem) (by decide)
        rw [List.takeWhile_cons_of_pos (by decide), List.dropWhile_cons_of_pos (by decide)]
        refine ⟨.comment hbody, ?_⟩
        rw [List.cons_append, List.cons_append, List.takeWhile_append_dropWhile]
      · cases h
        exact ⟨.spelling hslash, rfl⟩
    · cases h
      exact ⟨.spelling hslash, rfl⟩
  · rw [next_comparison hb] at h
    obtain ⟨hlong, hshort⟩ := hcomparisons _ hb
    split at h
    · split at h
      · next hc =>
        subst hc
        cases h
        exact ⟨.spelling hlong, rfl⟩
      · cases h
        exact ⟨.spelling hshort, rfl⟩
    · cases h
      exact ⟨.spelling hshort, rfl⟩
  · rw [next_mark hb] at h
    cases h
    exact ⟨.spelling (hmarks _ hb), rfl⟩
  · rw [hb] at h
    cases h

/-! ### No match is longer -/

/-- `Covers b rest text token?`: from `b :: rest`, `next` cuts off as much as `text` at least, and
where it cuts off just `text` it takes it for this token. -/
def Covers (b : UInt8) (rest text : Bytes) (token? : Option (TokenKind × Value)) : Prop :=
  ∃ lexeme more, next b rest = .ok (lexeme, more) ∧ text.length ≤ lexeme.text.length ∧
    (text = lexeme.text → token? = lexeme.token?)

theorem length_le_takeWhile {p : UInt8 → Bool} {run s : Bytes} (hrun : ∀ b ∈ run, p b = true)
    (h : run <+: s) : run.length ≤ (s.takeWhile p).length := by
  obtain ⟨more, rfl⟩ := h
  rw [List.takeWhile_append_of_pos hrun, List.length_append]
  exact Nat.le_add_right _ _

theorem covers_spelling {b : UInt8} {rest text : Bytes} {kind : TokenKind}
    (h : (text, kind) ∈ spellings) (hpre : text <+: b :: rest) :
    Covers b rest text (some (kind, .nil)) := by
  obtain heq | ⟨⟨c, long, short⟩, hc, heq⟩ | ⟨⟨c, kind'⟩, hm, heq⟩ := of_mem_spellings _ h
  · obtain ⟨rfl, rfl⟩ := Prod.mk.inj heq
    obtain ⟨rfl, -⟩ := List.cons_prefix_cons.1 hpre
    -- the slash may open a comment, which is longer
    rcases rest with _ | ⟨c, rest⟩
    · exact ⟨_, _, next_slash [], Nat.le_refl _, fun _ => rfl⟩
    · have hnext := next_slash (c :: rest)
      by_cases hc : c = byte '/'
      · subst hc
        exact ⟨_, _, hnext, Nat.succ_le_succ (Nat.zero_le _), fun heq => by cases heq⟩
      · simp only [if_neg hc] at hnext
        exact ⟨_, _, hnext, Nat.le_refl _, fun _ => rfl⟩
  · have hnext := next_comparison hc rest
    obtain heq | heq := heq
    · obtain ⟨rfl, rfl⟩ := Prod.mk.inj heq
      obtain ⟨rfl, htail⟩ := List.cons_prefix_cons.1 hpre
      obtain ⟨more, rfl⟩ := htail
      exact ⟨_, _, hnext, Nat.le_refl _, fun _ => rfl⟩
    · obtain ⟨rfl, rfl⟩ := Prod.mk.inj heq
      obtain ⟨rfl, -⟩ := List.cons_prefix_cons.1 hpre
      -- the character may go on with `=`, which is longer
      rcases rest with _ | ⟨c', rest⟩
      · exact ⟨_, _, hnext, Nat.le_refl _, fun _ => rfl⟩
      · by_cases hc' : c' = byte '='
        · simp only [if_pos hc'] at hnext
          exact ⟨_, _, hnext, Nat.succ_le_succ (Nat.zero_le _), fun heq => by cases heq⟩
        · simp only [if_neg hc'] at hnext
          exact ⟨_, _, hnext, Nat.le_refl _, fun _ => rfl⟩
  · obtain ⟨rfl, rfl⟩ := Prod.mk.inj heq
    obtain ⟨rfl, -⟩ := List.cons_prefix_cons.1 hpre
    exact ⟨_, _, next_mark hm rest, Nat.le_refl _, fun _ => rfl⟩

theorem covers_number {b : UInt8} {rest digits : Bytes} (h : Digits digits)
    (hpre : digits <+: b :: rest) :
    Covers b rest digits (some (.number, .number (Number.ofDecimal digits))) := by
  obtain ⟨hne, hall⟩ := h
  rcases digits with _ | ⟨d, digits⟩
  · exact absurd rfl hne
  obtain ⟨rfl, htail⟩ := List.cons_prefix_cons.1 hpre
  refine ⟨_, _, next_digit (hall d List.mem_cons_self) rest, ?_, ?_⟩
  · have hlen := length_le_takeWhile (fun c hc => hall c (List.mem_cons_of_mem d hc)) htail
    simp only [List.length_append, List.length_cons]
    omega
  · intro heq
    rw [heq]

theorem covers_decimal {b : UInt8} {rest digits places : Bytes} (h : Digits digits)
    (hplaces : Digits places) (hpre : digits ++ byte '.' :: places <+: b :: rest) :
    Covers b rest (digits ++ byte '.' :: places)
      (some (.number, .number (Number.ofDecimal (digits ++ byte '.' :: places)))) := by
  obtain ⟨hne, hall⟩ := h
  rcases digits with _ | ⟨d, digits⟩
  · exact absurd rfl hne
  obtain ⟨rfl, more, rfl⟩ := List.cons_prefix_cons.1 hpre
  have hdigits : ∀ c ∈ digits, Bytes.isDigit c = true :=
    fun c hc => hall c (List.mem_cons_of_mem d hc)
  -- the point ends the first run of digits, and the digit behind it starts the second
  have htake : (digits ++ byte '.' :: places ++ more).takeWhile Bytes.isDigit = digits := by
    rw [List.append_assoc, List.takeWhile_append_of_pos hdigits, List.cons_append,
      List.takeWhile_cons_of_neg (by decide), List.append_nil]
  have hdrop : (digits ++ byte '.' :: places ++ more).dropWhile Bytes.isDigit
      = byte '.' :: (places ++ more) := by
    rw [List.append_assoc, List.dropWhile_append_of_pos hdigits, List.cons_append,
      List.dropWhile_cons_of_neg (by decide)]
  have hnext := next_digit (hall d List.mem_cons_self) (digits ++ byte '.' :: places ++ more)
  rw [htake, hdrop, fraction_of_digits hplaces] at hnext
  refine ⟨_, _, hnext, ?_, ?_⟩
  · have hlen := length_le_takeWhile hplaces.2 (List.prefix_append places more)
    simp only [List.length_append, List.length_cons]
    omega
  · intro heq
    rw [heq]

theorem covers_comment {b : UInt8} {rest body : Bytes} (h : Bytes.newline ∉ body)
    (hpre : byte '/' :: byte '/' :: body <+: b :: rest) :
    Covers b rest (byte '/' :: byte '/' :: body) none := by
  obtain ⟨rfl, htail⟩ := List.cons_prefix_cons.1 hpre
  have hrun : ∀ c ∈ byte '/' :: body, (c != Bytes.newline) = true := by
    intro c hc
    rw [bne_iff_ne]
    rintro rfl
    rcases List.mem_cons.1 hc with hslash | hc
    · exact absurd hslash (by decide)
    · exact h hc
  have hlen := length_le_takeWhile hrun htail
  obtain ⟨more, rfl⟩ := htail
  exact ⟨_, _, next_slash (byte '/' :: body ++ more), Nat.succ_le_succ hlen, fun _ => rfl⟩

theorem covers_string {b : UInt8} {rest body : Bytes} (h : Bytes.quoteMark ∉ body)
    (hpre : Bytes.quoteMark :: (body ++ [Bytes.quoteMark]) <+: b :: rest) :
    Covers b rest (Bytes.quoteMark :: (body ++ [Bytes.quoteMark]))
      (some (.string, .string body)) := by
  obtain ⟨rfl, more, rfl⟩ := List.cons_prefix_cons.1 hpre
  have hbody : ∀ c ∈ body, (c != Bytes.quoteMark) = true := by
    intro c hc
    rw [bne_iff_ne]
    rintro rfl
    exact h hc
  have hnext := next_quote (body ++ [Bytes.quoteMark] ++ more)
  rw [List.append_assoc, List.takeWhile_append_of_pos hbody, List.dropWhile_append_of_pos hbody,
    List.singleton_append, List.takeWhile_cons_of_neg (by decide),
    List.dropWhile_cons_of_neg (by decide), List.append_nil] at hnext
  rw [List.append_assoc]
  exact ⟨_, _, hnext, Nat.le_refl _, fun _ => rfl⟩

/-- **No match is longer than what is cut off.** -/
theorem covers_of_matches {b : UInt8} {rest text : Bytes} {token? : Option (TokenKind × Value)}
    (h : Matches text token?) (hpre : text <+: b :: rest) : Covers b rest text token? := by
  cases h with
  | spelling h => exact covers_spelling h hpre
  | comment h => exact covers_comment h hpre
  | blank h =>
    obtain ⟨rfl, -⟩ := List.cons_prefix_cons.1 hpre
    exact ⟨_, _, next_blank ((isBlank_iff_mem _).2 h) rest, Nat.le_refl _, fun _ => rfl⟩
  | string h => exact covers_string h hpre
  | whole h => exact covers_number h hpre
  | decimal h hplaces => exact covers_decimal h hplaces hpre
  | @word c more h hmore =>
    obtain ⟨rfl, htail⟩ := List.cons_prefix_cons.1 hpre
    refine ⟨_, _, next_wordStart h rest, ?_, ?_⟩
    · exact Nat.succ_le_succ (length_le_takeWhile hmore htail)
    · intro heq
      rw [heq]
      rfl

/-! ### One cut -/

/-- **One cut takes the longest match.** -/
theorem next_eq_ok_iff {b : UInt8} {rest more : Bytes} {lexeme : Lexeme} :
    next b rest = .ok (lexeme, more) ↔
      LongestMatch (b :: rest) lexeme.text lexeme.token? ∧ b :: rest = lexeme.text ++ more := by
  constructor
  · intro h
    obtain ⟨hmatch, hsplit⟩ := matches_of_next h
    refine ⟨⟨hmatch, ⟨more, hsplit.symm⟩, ?_⟩, hsplit⟩
    intro text token? hmatch' hpre
    obtain ⟨lexeme', more', h', hlen, -⟩ := covers_of_matches hmatch' hpre
    rw [h] at h'
    cases h'
    exact hlen
  · rintro ⟨⟨hmatch, hpre, hlongest⟩, hsplit⟩
    obtain ⟨⟨text, token?⟩, more', h, hlen, htoken⟩ := covers_of_matches hmatch hpre
    obtain ⟨hmatch', hsplit'⟩ := matches_of_next h
    -- both are prefixes of one text and neither is longer than the other
    have hlen' := hlongest text token? hmatch' ⟨more', hsplit'.symm⟩
    have htext : lexeme.text = text :=
      (List.prefix_of_prefix_length_le hpre ⟨more', hsplit'.symm⟩ hlen).eq_of_length
        (Nat.le_antisymm hlen hlen')
    obtain ⟨text', token?'⟩ := lexeme
    obtain rfl : text' = text := htext
    obtain rfl : token?' = token? := htoken rfl
    obtain rfl : more' = more := List.append_cancel_left (hsplit'.symm.trans hsplit)
    exact h

/-- `!==` is cut behind its first `=`. -/
example : next (byte '!') [byte '=', byte '=']
    = .ok (plain [byte '!', byte '='] .bangEqual, [byte '=']) := rfl

/-- What is reported where nothing can be cut off. -/
inductive Blocked (b : UInt8) (rest : Bytes) : Trouble → Prop
  | string (h : b = Bytes.quoteMark) : Blocked b rest .unterminatedString
  | character {c : Char} (h : b ≠ Bytes.quoteMark) (hc : Utf8.StartsWith (b :: rest) c) :
      Blocked b rest (.unexpectedCharacter c)

theorem Blocked.unique {b : UInt8} {rest : Bytes} {t t' : Trouble} (h : Blocked b rest t)
    (h' : Blocked b rest t') : t = t' := by
  cases h with
  | string hb =>
    cases h' with
    | string => rfl
    | character hb' => exact absurd hb hb'
  | character hb hc =>
    cases h' with
    | string hb' => exact absurd hb' hb
    | character hb' hc' =>
      rw [Utf8.startsWith_iff] at hc hc'
      rw [hc, hc']

theorem blocked_of_next {b : UInt8} {rest : Bytes} {trouble : Trouble}
    (h : next b rest = .error trouble) : Blocked b rest trouble := by
  obtain hb | rfl | hb | hb | rfl | ⟨long, short, hb⟩ | ⟨kind, hb⟩ | ⟨hquote, hb⟩ := first_cases b
  · rw [next_blank hb] at h
    cases h
  · rw [next_quote] at h
    split at h
    · cases h
      exact .string rfl
    · cases h
  · rw [next_digit hb] at h
    cases h
  · rw [next_wordStart hb] at h
    cases h
  · rw [next_slash] at h
    split at h
    · split at h <;> cases h
    · cases h
  · rw [next_comparison hb] at h
    split at h
    · split at h <;> cases h
    · cases h
  · rw [next_mark hb] at h
    cases h
  · rw [hb] at h
    cases h
    exact .character hquote ((Utf8.startsWith_iff b rest _).2 rfl)

/-- **Nothing is cut off where no pattern matches**, and only there. -/
theorem next_eq_error_iff {b : UInt8} {rest : Bytes} {trouble : Trouble} :
    next b rest = .error trouble ↔ Unmatched (b :: rest) ∧ Blocked b rest trouble := by
  constructor
  · intro h
    refine ⟨fun text token? hmatch hpre => ?_, blocked_of_next h⟩
    obtain ⟨lexeme, more, h', -⟩ := covers_of_matches hmatch hpre
    rw [h] at h'
    cases h'
  · rintro ⟨hnone, hblocked⟩
    cases h : next b rest with
    | error trouble' => rw [hblocked.unique (blocked_of_next h)]
    | ok cut =>
      obtain ⟨hmatch, hsplit⟩ := matches_of_next h
      exact absurd ⟨cut.2, hsplit.symm⟩ (hnone _ _ hmatch)

end Reckoner.Lexeme
