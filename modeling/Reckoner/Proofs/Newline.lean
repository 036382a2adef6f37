import Reckoner.Proofs.Scanning
import Reckoner.Proofs.Lines

/-!
# Reckoner.Proofs.Newline — a newline keeps sources apart

Only a string may go on behind a newline, and a string that is closed in front of it does not. So
what is cut off in front of a newline stays what it is, whatever follows
(`LongestMatch.before_newline`), and a source that is scanned to its end is scanned the same way in
front of a newline (`Reached.followed`). What follows a place is scanned like a source of its own,
except that its lines are counted from there on (`scan_behind`). Together: `scan_newline`.

A character that starts nothing is answered for as it stands, and it does not reach past a newline
either, be it cut short in front of it (`StartsWith.before_newline`).

Main statement: `scan_across_newline`.
-/

namespace Reckoner

/-- A prefix of a text with a byte in it either ends in front of that byte or takes it in. -/
theorem Bytes.prefix_or_past {s text more : Bytes} {b : UInt8} (h : text <+: s ++ b :: more) :
    text <+: s ∨ s ++ [b] <+: text := by
  have hpast : s ++ [b] <+: s ++ b :: more := ⟨more, by simp⟩
  rcases List.prefix_or_prefix_of_prefix h hpast with h | h
  · rcases List.prefix_concat_iff.1 h with rfl | h
    · exact .inr (List.prefix_refl _)
    · exact .inl h
  · exact .inr h

namespace Lexeme

/-! ## Matches, blanks and newlines -/

/-- A match with a blank in it is that blank, a comment or a string. -/
theorem Matches.of_blank_mem {text : Bytes} {token? : Option (TokenKind × Value)} {b : UInt8}
    (h : Matches text token?) (hb : isBlank b = true) (hmem : b ∈ text) :
    text = [b] ∨ (∃ body, Bytes.newline ∉ body ∧ text = byte '/' :: byte '/' :: body) ∨
      ∃ body, Bytes.quoteMark ∉ body ∧ text = Bytes.quoteMark :: (body ++ [Bytes.quoteMark]) := by
  have hrange := (isBlank_iff b).1 hb
  have hspellings : ∀ entry ∈ spellings, entry.1.all (fun c => !isBlank c) = true := by decide
  have hdigits : ∀ {s : Bytes}, Digits s → b ∉ s := by
    intro s hs hmem
    have hdigit := (isDigit_iff b).1 (hs.2 b hmem)
    omega
  have hletter : Bytes.isWordStart b = false := by
    rw [Bool.eq_false_iff, Ne, isWordStart_iff]
    omega
  cases h with
  | spelling h =>
    have hclean := List.all_eq_true.1 (hspellings _ h) b hmem
    rw [hb] at hclean
    cases hclean
  | @comment body h => exact .inr (.inl ⟨body, h, rfl⟩)
  | blank => exact .inl (by rw [List.mem_singleton.1 hmem])
  | @string body h => exact .inr (.inr ⟨body, h, rfl⟩)
  | whole h => exact absurd hmem (hdigits h)
  | decimal h hplaces =>
    rcases List.mem_append.1 hmem with hmem | hmem
    · exact absurd hmem (hdigits h)
    rcases List.mem_cons.1 hmem with rfl | hmem
    · exact absurd hb (by decide)
    · exact absurd hmem (hdigits hplaces)
  | @word c more h hmore =>
    rcases List.mem_cons.1 hmem with rfl | hmem
    · rw [h] at hletter
      cases hletter
    · have hpart := hmore b hmem
      rw [Bytes.isWordPart, hletter, Bool.false_or, isDigit_iff] at hpart
      omega

/-- A match with a newline in it is that newline or a string. -/
theorem Matches.of_newline_mem {text : Bytes} {token? : Option (TokenKind × Value)}
    (h : Matches text token?) (hmem : Bytes.newline ∈ text) :
    text = [Bytes.newline] ∨
      ∃ body, Bytes.quoteMark ∉ body ∧ text = Bytes.quoteMark :: (body ++ [Bytes.quoteMark]) := by
  obtain heq | ⟨body, hbody, rfl⟩ | hstring := h.of_blank_mem (by decide) hmem
  · exact .inl heq
  · simp only [List.mem_cons] at hmem
    rcases hmem with hslash | hslash | hmem
    · exact absurd hslash (by decide)
    · exact absurd hslash (by decide)
    · exact absurd hmem hbody
  · exact .inr hstring

/-- A match that starts with no blank, digit or letter is spelled out, a comment or a string. -/
theorem Matches.of_mark {b : UInt8} {rest : Bytes} {token? : Option (TokenKind × Value)}
    (h : Matches (b :: rest) token?) (hblank : isBlank b = false)
    (hdigit : Bytes.isDigit b = false) (hword : Bytes.isWordStart b = false) :
    (∃ kind, (b :: rest, kind) ∈ spellings) ∨
      (∃ body, b :: rest = byte '/' :: byte '/' :: body ∧ token? = none) ∨
      ∃ body, Bytes.quoteMark ∉ body ∧
        b :: rest = Bytes.quoteMark :: (body ++ [Bytes.quoteMark]) := by
  have hdigits : ∀ {s more : Bytes}, Digits s → b :: rest ≠ s ++ more := by
    rintro (_ | ⟨d, s⟩) more ⟨hne, hall⟩ heq
    · exact hne rfl
    · have hd := hall d List.mem_cons_self
      rw [← (List.cons.inj heq).1, hdigit] at hd
      cases hd
  generalize htext : b :: rest = text at h
  cases h with
  | @spelling _ kind h => exact .inl ⟨kind, h⟩
  | @comment body => exact .inr (.inl ⟨body, rfl, rfl⟩)
  | blank h =>
    rw [← (List.cons.inj htext).1] at h
    exact absurd ((isBlank_iff_mem b).2 h) (by simp [hblank])
  | @string body h => exact .inr (.inr ⟨body, h, rfl⟩)
  | whole h => exact absurd (htext.trans (List.append_nil _).symm) (hdigits h)
  | decimal h => exact absurd htext (hdigits h)
  | word h =>
    rw [← (List.cons.inj htext).1, hword] at h
    cases h

/-- A match that starts with a quote ends with the next one. -/
theorem Matches.of_quote {rest : Bytes} {token? : Option (TokenKind × Value)}
    (h : Matches (Bytes.quoteMark :: rest) token?) :
    ∃ body, Bytes.quoteMark ∉ body ∧ rest = body ++ [Bytes.quoteMark] := by
  have hspellings : ∀ entry ∈ spellings, entry.1.head? ≠ some Bytes.quoteMark := by decide
  obtain ⟨kind, hspelled⟩ | ⟨body, heq, -⟩ | ⟨body, hbody, heq⟩ :=
    h.of_mark (by decide) (by decide) (by decide)
  · exact absurd rfl (hspellings _ hspelled)
  · exact absurd (List.cons.inj heq).1 (by decide)
  · exact ⟨body, hbody, (List.cons.inj heq).2⟩

/-- No string goes past a match: both are closed by the first quote. -/
theorem Matches.eq_of_prefix_string {text body : Bytes} {token? : Option (TokenKind × Value)}
    (h : Matches text token?) (hbody : Bytes.quoteMark ∉ body)
    (hpre : text <+: Bytes.quoteMark :: (body ++ [Bytes.quoteMark])) :
    text = Bytes.quoteMark :: (body ++ [Bytes.quoteMark]) := by
  obtain ⟨b, rest, rfl⟩ := List.exists_cons_of_ne_nil h.ne_nil
  obtain ⟨rfl, hrest⟩ := List.cons_prefix_cons.1 hpre
  obtain ⟨body', -, rfl⟩ := h.of_quote
  rcases List.prefix_concat_iff.1 hrest with heq | hinside
  · rw [heq]
  · exact absurd (hinside.subset (by simp)) hbody

/-- Where something matches in front of a newline, no match goes past the newline. -/
theorem Matches.length_le_of_newline {s more text text' : Bytes}
    {token? token?' : Option (TokenKind × Value)} (h : Matches text token?) (hpre : text <+: s)
    (h' : Matches text' token?') (hpre' : text' <+: s ++ Bytes.newline :: more) :
    text'.length ≤ s.length := by
  rcases Bytes.prefix_or_past hpre' with hinside | hpast
  · exact hinside.length_le
  have hmem : Bytes.newline ∈ text' := hpast.subset (by simp)
  have hfront : text <+: text' := (hpre.trans (List.prefix_append ..)).trans hpast
  obtain rfl | ⟨body', hbody', rfl⟩ := h'.of_newline_mem hmem
  · exact Nat.le_trans (List.length_pos_iff.2 h.ne_nil) hpre.length_le
  · rw [← h.eq_of_prefix_string hbody' hfront]
    exact hpre.length_le

/-- **What is matched in front of a newline stays the longest match**, whatever stands behind. -/
theorem LongestMatch.before_newline {s text : Bytes} {token? : Option (TokenKind × Value)}
    (h : LongestMatch s text token?) (more : Bytes) :
    LongestMatch (s ++ Bytes.newline :: more) text token? := by
  obtain ⟨hmatch, hpre, hlongest⟩ := h
  refine ⟨hmatch, hpre.trans (List.prefix_append ..), ?_⟩
  intro text' token?' hmatch' hpre'
  have hle := hmatch.length_le_of_newline hpre hmatch' hpre'
  exact hlongest _ _ hmatch' (List.prefix_of_prefix_length_le hpre' (List.prefix_append ..) hle)

theorem Trouble.diagnostic_reline (f : Int → Int) (line : Int) (trouble : Trouble) :
    (trouble.diagnostic line).reline f = trouble.diagnostic (f line) := by
  cases trouble <;> rfl

/-- A character that starts nothing starts nothing in front of a newline either. -/
theorem Unmatched.before_newline {b : UInt8} {rest : Bytes} (h : Unmatched (b :: rest))
    (hb : b ≠ Bytes.quoteMark) (more : Bytes) :
    Unmatched (b :: rest ++ Bytes.newline :: more) := by
  intro text token? hmatch hpre
  rcases Bytes.prefix_or_past hpre with hinside | hpast
  · exact h text token? hmatch hinside
  obtain rfl | ⟨body, -, rfl⟩ := hmatch.of_newline_mem (hpast.subset (by simp))
  · have hlen := hpast.length_le
    simp at hlen
  · exact hb (List.cons_prefix_cons.1 hpast).1

end Lexeme

/-- The character that a text starts with does not reach past a newline. -/
theorem Utf8.StartsWith.before_newline {b : UInt8} {rest : Bytes} {c : Char}
    (h : StartsWith (b :: rest) c) (more : Bytes) :
    StartsWith (b :: rest ++ Bytes.newline :: more) c := by
  rcases h with hform | ⟨rfl, hnone⟩
  · exact .inl (hform.trans (List.prefix_append ..))
  · refine .inr ⟨rfl, fun d hd => ?_⟩
    rcases Bytes.prefix_or_past hd with hinside | hpast
    · exact hnone d hinside
    -- the newline would stand inside a form, behind its first byte
    have hform := form_encode d
    obtain ⟨tail, htail⟩ : ∃ tail, encode d = b :: tail := by
      obtain ⟨tail, htail⟩ := hpast
      exact ⟨rest ++ [Bytes.newline] ++ tail, by rw [← htail]; rfl⟩
    rw [htail] at hform hpast
    have hmem : Bytes.newline ∈ tail := (List.cons_prefix_cons.1 hpast).2.subset (by simp)
    exact absurd (hform.tail_ge _ hmem) (by decide)

namespace Token

open Lexeme

/-! ## In front of a newline -/

/-- The place with more text behind it. -/
def Place.followed (more : Bytes) (p : Place) : Place := { p with rest := p.rest ++ more }

theorem Step.followed {p q : Place} (h : Step p q) (more : Bytes) :
    Step (p.followed (Bytes.newline :: more)) (q.followed (Bytes.newline :: more)) := by
  cases h with
  | cut longest =>
    have hlonger := longest.before_newline more
    simp only [Place.followed]
    rw [List.append_assoc] at hlonger ⊢
    exact .cut hlonger

/-- Cuts are the same in front of a newline. -/
theorem Reached.followed {source : Bytes} {place : Place} (h : Reached source place)
    (more : Bytes) :
    Reached (source ++ Bytes.newline :: more) (place.followed (Bytes.newline :: more)) := by
  induction h with
  | refl => exact .refl
  | tail _ step ih => exact ih.tail (step.followed more)

/-! ## Behind a place -/

/-- The place of a source that stands behind another text and its tokens. -/
def Place.behind (before : Bytes) (tokens : List Token) (p : Place) : Place :=
  ⟨before ++ p.before,
    tokens ++ p.tokens.map (reline (· + (Bytes.newlines before : Int))), p.rest⟩

theorem ofMatch_reline (line n : Nat) (text : Bytes) (token? : Option (TokenKind × Value)) :
    (ofMatch line text token?).map (reline (· + (n : Int))) = ofMatch (line + n) text token? := by
  cases token? with
  | none => rfl
  | some token => simp [ofMatch, reline]

theorem lineAfter_behind (before text : Bytes) :
    lineAfter (before ++ text) = lineAfter text + Bytes.newlines before := by
  unfold lineAfter
  rw [Bytes.newlines_append]
  omega

theorem Step.behind {p q : Place} (h : Step p q) (before : Bytes) (tokens : List Token) :
    Step (p.behind before tokens) (q.behind before tokens) := by
  cases h with
  | cut longest =>
    simp only [Place.behind, List.map_append, ofMatch_reline]
    rw [← lineAfter_behind, ← List.append_assoc, ← List.append_assoc]
    exact .cut longest

/-- Cuts behind a text are the cuts of what follows it. -/
theorem Reached.behind {source before rest : Bytes} {tokens : List Token} {place : Place}
    (h : Reached source ⟨before, tokens, rest⟩) (hplace : Reached rest place) :
    Reached source (place.behind before tokens) := by
  induction hplace with
  | refl =>
    have hstart : Place.behind before tokens ⟨[], [], rest⟩ = ⟨before, tokens, rest⟩ := by
      simp [Place.behind]
    rw [hstart]
    exact h
  | tail _ step ih => exact ih.tail (step.behind before tokens)

/-- The tokens of a source behind other tokens, or its diagnostic, at other lines. -/
def continued (tokens : List Token) (f : Int → Int) :
    Except Diagnostic (List Token) → Except Diagnostic (List Token)
  | .ok more => .ok (tokens ++ more.map (reline f))
  | .error d => .error (d.reline f)

/-- **What follows a place is scanned like a source of its own**, with lines counted from there. -/
theorem scan_behind {source before rest : Bytes} {tokens : List Token}
    (h : Reached source ⟨before, tokens, rest⟩) :
    scan source = continued tokens (· + (Bytes.newlines before : Int)) (scan rest) := by
  have hsource : before ++ rest = source := h.append_eq
  obtain ⟨more, hend, hok⟩ | ⟨front, more, b, tail, trouble, hplace, hnone, hblocked, herror⟩ :=
    scan_cases rest
  · have hlast := h.behind hend
    simp only [Place.behind, hsource] at hlast
    rw [scan_of_end hlast, hok, continued, List.map_append, List.map_singleton, endMark_reline,
      ← hsource, lineAfter_behind, List.append_assoc]
    simp
  · have hstuck := h.behind hplace
    rw [scan_of_stuck hstuck hnone hblocked, herror, continued,
      Trouble.diagnostic_reline, lineAfter_behind]
    simp

/-- **A scanned source in front of a newline.** Its tokens come first, and those of what stands
behind the newline follow, a line further down than the source ends; or the diagnostic there is the
answer. -/
theorem scan_newline {source : Bytes} {tokens : List Token}
    (h : Reached source ⟨source, tokens, []⟩) (more : Bytes) :
    scan (source ++ Bytes.newline :: more)
      = continued tokens (· + (1 + Bytes.newlines source : Nat)) (scan more) := by
  have hfront : Reached (source ++ Bytes.newline :: more) ⟨source, tokens, Bytes.newline :: more⟩ :=
    h.followed more
  have hcut : next Bytes.newline more = .ok (⟨[Bytes.newline], none⟩, more) := next_blank rfl more
  have hplace := hfront.tail (step_of_next hcut)
  have hlines : Bytes.newlines (source ++ [Bytes.newline]) = 1 + Bytes.newlines source := by
    rw [Bytes.newlines_append, Nat.add_comm]
    rfl
  simp only [ofMatch, List.append_nil] at hplace
  rw [scan_behind hplace, hlines]

/-- A character that starts no token is reported alike in front of a newline. -/
theorem scan_unexpected_newline {source : Bytes} {d : Diagnostic} (h : scan source = .error d)
    (hkind : d.kind = .unexpectedCharacter) (more : Bytes) :
    scan (source ++ Bytes.newline :: more) = .error d := by
  obtain ⟨before, tokens, b, rest, trouble, hreached, hnone, hblocked, rfl⟩ :=
    scan_eq_error_iff.1 h
  have hplace := hreached.followed more
  cases hblocked with
  | string => cases hkind
  | character hb hc =>
    exact scan_of_stuck hplace (hnone.before_newline hb more)
      (.character hb (hc.before_newline more))

/-- **Scanning goes through a newline piece by piece.** Behind a source that is scanned, a newline
and any other text are scanned exactly if the text is scanned by itself. The tokens of both then
stand one behind the other, and the lines of the second are further down by the last line of the
first; so is the line of its diagnostic if it has one. A source with a character that starts no
token is answered for that character, whatever stands behind the newline. -/
theorem scan_across_newline (source more : Bytes) :
    (∀ result, scan source = .ok result →
      ∃ tokens line, result = tokens ++ [endMark line] ∧
        ((∃ whole, scan (source ++ Bytes.newline :: more) = .ok whole) ↔
          ∃ behind, scan more = .ok behind) ∧
        (∀ behind, scan more = .ok behind →
          scan (source ++ Bytes.newline :: more)
            = .ok (tokens ++ behind.map (reline (· + line)))) ∧
        ∀ d, scan more = .error d →
          scan (source ++ Bytes.newline :: more) = .error (d.reline (· + line))) ∧
    ∀ d, scan source = .error d → d.kind = .unexpectedCharacter →
      scan (source ++ Bytes.newline :: more) = .error d := by
  refine ⟨fun result h => ?_, fun d h hkind => scan_unexpected_newline h hkind more⟩
  obtain ⟨tokens, hreached, rfl⟩ := scan_eq_ok_iff.1 h
  refine ⟨tokens, lineAfter source, rfl, ?_⟩
  have hjoined := scan_newline hreached more
  cases hmore : scan more with
  | ok behind =>
    rw [hmore] at hjoined
    refine ⟨⟨fun _ => ⟨behind, rfl⟩, fun _ => ⟨_, hjoined⟩⟩, ?_, ?_⟩
    · rintro _ ⟨⟩
      exact hjoined
    · rintro _ ⟨⟩
  | error d =>
    rw [hmore] at hjoined
    refine ⟨⟨?_, ?_⟩, ?_, ?_⟩
    · rintro ⟨whole, hwhole⟩
      cases hwhole.symm.trans hjoined
    · rintro ⟨behind, ⟨⟩⟩
    · rintro _ ⟨⟩
    · rintro _ ⟨⟩
      exact hjoined

/-- A comment in front of a newline, and behind it a word or an open string; and a character that is
cut short in front of the newline. -/
theorem scan_across_newline_comment :
    let source := utf8 "nil // c"
    let first : Token := ⟨.nilWord, utf8 "nil", .nil, 1⟩
    let second : Token := ⟨.trueWord, utf8 "true", .nil, 1⟩
    scan source = .ok [first, endMark 1] ∧ scan (utf8 "true") = .ok [second, endMark 1] ∧
      scan (source ++ Bytes.newline :: utf8 "true")
        = .ok [first, second.reline (· + 1), endMark 2] ∧
      scan (utf8 "\"a") = .error (.unterminatedString 1) ∧
      scan (source ++ Bytes.newline :: utf8 "\"a") = .error (.unterminatedString 2) ∧
      scan [0xE2, 0x82] = .error (.unexpectedCharacter 1 Rune.replacement) ∧
      scan ([0xE2, 0x82] ++ Bytes.newline :: utf8 "true")
        = .error (.unexpectedCharacter 1 Rune.replacement) := by
  intro source first second
  have hfirst : scan source = .ok ([first] ++ [endMark 1]) := by with_unfolding_all rfl
  have hsecond : scan (utf8 "true") = .ok [second, endMark 1] := by with_unfolding_all rfl
  have hopen : scan (utf8 "\"a") = .error (.unterminatedString 1) := by with_unfolding_all rfl
  have hshort : scan [0xE2, 0x82] = .error (.unexpectedCharacter 1 Rune.replacement) := by
    with_unfolding_all rfl
  obtain ⟨tokens, line, heq, -, hword, -⟩ := (scan_across_newline source (utf8 "true")).1 _ hfirst
  obtain ⟨tokens', line', heq', -, -, hstring⟩ :=
    (scan_across_newline source (utf8 "\"a")).1 _ hfirst
  obtain ⟨rfl, hmark⟩ := List.append_inj' heq rfl
  obtain ⟨-, hmark'⟩ := List.append_inj' heq' rfl
  obtain rfl : 1 = line := congrArg Token.line (List.cons.inj hmark).1
  obtain rfl : 1 = line' := congrArg Token.line (List.cons.inj hmark').1
  exact ⟨hfirst, hsecond, hword _ hsecond, hopen, hstring _ hopen, hshort,
    (scan_across_newline _ (utf8 "true")).2 _ hshort rfl⟩

end Token

end Reckoner
