import Reckoner.Proofs.Scanning

/-!
# Reckoner.Proofs.Gaps — a source is its tokens and the gaps around them

Scanning drops blanks and comments, and nothing else. `Gap` says what may be dropped, and `Laid`
that a text is made of tokens with gaps in front of, between and behind them, each token on the line
where its lexeme starts. Read from the end of a source backwards, each cut puts one lexeme in front
of a text that is laid out already (`LaidOut.of_step`).

Main statement: `scan_lossless`. The lexemes of a scanned source, with gaps around them, are the
source again.
-/

namespace Reckoner.Token

open Lexeme

/-! ## What stands between tokens -/

/-- `Gap behind gap`: the text `gap` consists of blanks and comments, and `behind` follows it. A
comment takes up its line, so that it is followed by a newline or by nothing at all. -/
inductive Gap (behind : Bytes) : Bytes → Prop
  | nil : Gap behind []
  | blank {b : UInt8} {more : Bytes} (h : b ∈ [byte ' ', byte '\t', byte '\r', byte '\n'])
      (hmore : Gap behind more) : Gap behind (b :: more)
  | comment {body more : Bytes} (h : Bytes.newline ∉ body)
      (hline : ∀ b ∈ (more ++ behind).head?, b = Bytes.newline) (hmore : Gap behind more) :
      Gap behind (byte '/' :: byte '/' :: (body ++ more))

/-- A longest match without a token extends the gap behind it. -/
theorem Gap.of_longest {text gap behind : Bytes}
    (h : LongestMatch (text ++ (gap ++ behind)) text none) (hgap : Gap behind gap) :
    Gap behind (text ++ gap) := by
  obtain ⟨hmatch, -, hlongest⟩ := h
  cases hmatch with
  | blank hb => exact .blank hb hgap
  | @comment body hbody =>
    refine .comment hbody ?_ hgap
    intro b hb
    apply Decidable.byContradiction
    intro hne
    -- the comment would go on with `b`
    obtain ⟨more, hmore⟩ : ∃ more, gap ++ behind = b :: more := by
      cases hrest : gap ++ behind with
      | nil => simp [hrest] at hb
      | cons c more =>
        rw [hrest, List.head?_cons, Option.mem_some_iff] at hb
        exact ⟨more, by rw [hb]⟩
    have hlonger : Matches (byte '/' :: byte '/' :: (body ++ [b])) none := by
      apply Matches.comment
      intro hmem
      rcases List.mem_append.1 hmem with hmem | hmem
      · exact hbody hmem
      · exact hne (List.mem_singleton.1 hmem).symm
    have hlen := hlongest _ _ hlonger ⟨more, by simp [hmore]⟩
    simp only [List.length_cons, List.length_append, List.length_nil] at hlen
    omega

/-- The text of tokens with a gap behind each. -/
def spelled (pieces : List (Token × Bytes)) : Bytes :=
  pieces.flatMap fun piece => piece.1.lexeme ++ piece.2

theorem spelled_cons (t : Token) (gap : Bytes) (pieces : List (Token × Bytes)) :
    spelled ((t, gap) :: pieces) = t.lexeme ++ (gap ++ spelled pieces) := by
  simp [spelled]

/-! ## Texts that are laid out -/

/-- `Laid before first pieces`: behind the text `before` stand a gap and tokens with a gap behind
each. The tokens bear the lines where their lexemes start. -/
inductive Laid : Bytes → Bytes → List (Token × Bytes) → Prop
  | last {before first : Bytes} (hfirst : Gap [] first) : Laid before first []
  | token {before first gap : Bytes} {t : Token} {pieces : List (Token × Bytes)}
      (hfirst : Gap (spelled ((t, gap) :: pieces)) first)
      (hline : t.line = lineAfter (before ++ first))
      (hrest : Laid (before ++ first ++ t.lexeme) gap pieces) :
      Laid before first ((t, gap) :: pieces)

theorem Laid.first_gap {before first : Bytes} {pieces : List (Token × Bytes)}
    (h : Laid before first pieces) : Gap (spelled pieces) first := by
  cases h with
  | last hfirst => exact hfirst
  | token hfirst => exact hfirst

/-- The end of the text in front may as well count to the first gap, if that stays a gap. -/
theorem Laid.widen {before text first : Bytes} {pieces : List (Token × Bytes)}
    (h : Laid (before ++ text) first pieces) (hgap : Gap (spelled pieces) (text ++ first)) :
    Laid before (text ++ first) pieces := by
  cases h with
  | last => exact .last hgap
  | token _ hline hrest =>
    rw [List.append_assoc before] at hline hrest
    exact .token hgap hline hrest

/-- What is known of each token: the gap behind it and its line. -/
theorem Laid.at_token {before first gap : Bytes} {t : Token} {front back : List (Token × Bytes)}
    (h : Laid before first (front ++ (t, gap) :: back)) :
    Gap (spelled back) gap ∧ t.line = lineAfter (before ++ (first ++ spelled front)) := by
  induction front generalizing before first with
  | nil =>
    cases h with
    | token _ hline hrest =>
      have hnil : spelled [] = [] := rfl
      rw [hnil, List.append_nil]
      exact ⟨hrest.first_gap, hline⟩
  | cons piece front ih =>
    cases h with
    | token _ _ hrest =>
      obtain ⟨hgap, hline⟩ := ih hrest
      refine ⟨hgap, ?_⟩
      rw [hline, spelled_cons]
      simp only [List.append_assoc]

/-- `LaidOut p tokens`: the rest of a place is laid out, and `tokens` are those of the place with
those of the rest behind them. -/
def Place.LaidOut (p : Place) (tokens : List Token) : Prop :=
  ∃ first pieces, p.rest = first ++ spelled pieces ∧ tokens = p.tokens ++ pieces.map Prod.fst ∧
    Laid p.before first pieces

/-- A cut in front of a rest that is laid out adds to its first gap or starts with a token. -/
theorem Place.LaidOut.of_step {p q : Place} {tokens : List Token} (h : Step p q)
    (hq : q.LaidOut tokens) : p.LaidOut tokens := by
  obtain ⟨first, pieces, hrest, htokens, hlaid⟩ := hq
  cases h with
  | @cut before text rest front token? longest =>
    obtain rfl : rest = first ++ spelled pieces := hrest
    cases token? with
    | none =>
      refine ⟨text ++ first, pieces, (List.append_assoc ..).symm, ?_, ?_⟩
      · rw [htokens, ofMatch, List.append_nil]
      · exact hlaid.widen (.of_longest longest hlaid.first_gap)
    | some token =>
      obtain ⟨kind, literal⟩ := token
      refine ⟨[], (⟨kind, text, literal, lineAfter before⟩, first) :: pieces, ?_, ?_, ?_⟩
      · rw [spelled_cons]
        rfl
      · rw [htokens, ofMatch, List.append_assoc]
        rfl
      · refine .token .nil ?_ ?_
        · rw [List.append_nil]
        · rw [List.append_nil]
          exact hlaid

/-- Cuts that lead to the end of a source go through text that is laid out. -/
theorem laidOut_of_end {p : Place} {source : Bytes} {tokens : List Token}
    (h : Relation.ReflTransGen Step p ⟨source, tokens, []⟩) : p.LaidOut tokens := by
  induction h using Relation.ReflTransGen.head_induction_on with
  | refl => exact ⟨[], [], rfl, by simp, .last .nil⟩
  | head step _ ih => exact ih.of_step step

/-! ## What patterns say of tokens -/

/-- A token is what its lexeme matches. -/
theorem Reached.matches {source : Bytes} {place : Place} (h : Reached source place) :
    ∀ t ∈ place.tokens, Matches t.lexeme (some (t.kind, t.literal)) := by
  induction h with
  | refl =>
    intro t ht
    cases ht
  | tail _ step ih =>
    cases step with
    | @cut _ text _ _ token? longest =>
      intro t ht
      rcases List.mem_append.1 ht with ht | ht
      · exact ih t ht
      · cases token? with
        | none => cases ht
        | some token =>
          rw [List.mem_singleton.1 ht]
          exact longest.1

theorem ofWord_mem (word : Bytes) :
    TokenKind.ofWord word = .identifier ∨
      ∃ entry ∈ TokenKind.keywords, TokenKind.ofWord word = entry.2 := by
  unfold TokenKind.ofWord
  cases h : TokenKind.keywords.lookup word with
  | none => exact .inl rfl
  | some kind => exact .inr ⟨(word, kind), Lexeme.mem_of_lookup h, rfl⟩

/-- A word is neither an end mark nor a string. -/
theorem ofWord_ne (word : Bytes) :
    TokenKind.ofWord word ≠ .eof ∧ TokenKind.ofWord word ≠ .string := by
  have hkeywords : ∀ entry ∈ TokenKind.keywords, entry.2 ≠ .eof ∧ entry.2 ≠ .string := by decide
  rcases ofWord_mem word with h | ⟨entry, hmem, h⟩
  · rw [h]
    decide
  · rw [h]
    exact hkeywords entry hmem

/-- Neither is a spelling. -/
theorem spellings_ne : ∀ entry ∈ spellings, entry.2 ≠ .eof ∧ entry.2 ≠ .string := by
  decide

/-- No text matches as an end mark. -/
theorem kind_ne_eof_of_matches {text : Bytes} {kind : TokenKind} {literal : Value}
    (h : Matches text (some (kind, literal))) : kind ≠ .eof := by
  cases h with
  | spelling h => exact (spellings_ne _ h).1
  | string => decide
  | whole => decide
  | decimal => decide
  | word => exact (ofWord_ne _).1

/-- No token of a source is an end mark. -/
theorem Reached.kind_ne_eof {source : Bytes} {place : Place} (h : Reached source place) :
    ∀ t ∈ place.tokens, t.kind ≠ .eof := by
  intro t ht
  exact kind_ne_eof_of_matches (h.matches t ht)

/-- A string's value stands between its quotes. -/
theorem string_of_matches {text : Bytes} {literal : Value}
    (h : Matches text (some (.string, literal))) :
    ∃ body, text = Bytes.quoteMark :: (body ++ [Bytes.quoteMark]) ∧ literal = .string body := by
  generalize hkind : TokenKind.string = kind at h
  cases h with
  | spelling h => exact absurd hkind.symm (spellings_ne _ h).2
  | string => exact ⟨_, rfl, rfl⟩
  | whole => cases hkind
  | decimal => cases hkind
  | word => exact absurd hkind.symm (ofWord_ne _).2

/-! ## Whole sources -/

/-- **Scanning loses nothing and counts lines.** A scanned source is the lexemes of its tokens with
gaps of blanks and comments around them. Each token bears the line where its lexeme starts, which is
one more than there are newlines in front; the value of a string is its lexeme without the quotes;
and the end mark, on the last line of the source, is the only one and comes last. -/
theorem scan_lossless {source : Bytes} {result : List Token} (h : scan source = .ok result) :
    ∃ (first : Bytes) (pieces : List (Token × Bytes)),
      source = first ++ spelled pieces ∧
      result = pieces.map Prod.fst ++ [endMark (1 + Bytes.newlines source : Nat)] ∧
      Gap (spelled pieces) first ∧
      (∀ front t gap back, pieces = front ++ (t, gap) :: back →
        Gap (spelled back) gap ∧
        t.line = (1 + Bytes.newlines (first ++ spelled front) : Nat)) ∧
      ∀ t ∈ pieces.map Prod.fst, t.kind ≠ .eof ∧
        (t.kind = .string → ∃ body,
          t.lexeme = Bytes.quoteMark :: (body ++ [Bytes.quoteMark]) ∧
          t.literal = .string body) := by
  obtain ⟨tokens, hreached, rfl⟩ := scan_eq_ok_iff.1 h
  obtain ⟨first, pieces, hrest, rfl, hlaid⟩ := laidOut_of_end hreached
  refine ⟨first, pieces, hrest, rfl, hlaid.first_gap, ?_, ?_⟩
  · rintro front t gap back rfl
    exact hlaid.at_token
  · intro t ht
    refine ⟨hreached.kind_ne_eof t ht, ?_⟩
    intro hkind
    have hmatch := hreached.matches t ht
    rw [hkind] at hmatch
    exact string_of_matches hmatch

/-- A string over two lines, a comment behind it, and a word on the third line. -/
theorem scan_lossless_lines :
    let source := utf8 "\"a\nb\" // c\n nil"
    let tokens : List Token :=
      [⟨.string, utf8 "\"a\nb\"", .string (utf8 "a\nb"), 1⟩, ⟨.nilWord, utf8 "nil", .nil, 3⟩]
    scan source = .ok (tokens ++ [endMark 3]) ∧
    ∃ (first : Bytes) (pieces : List (Token × Bytes)),
      source = first ++ spelled pieces ∧ pieces.map Prod.fst = tokens ∧
      Gap (spelled pieces) first ∧
      ∀ front t gap back, pieces = front ++ (t, gap) :: back →
        Gap (spelled back) gap ∧
        t.line = (1 + Bytes.newlines (first ++ spelled front) : Nat) := by
  intro source tokens
  have hscan : scan source = .ok (tokens ++ [endMark 3]) := by with_unfolding_all rfl
  obtain ⟨first, pieces, hsource, hresult, hfirst, hpieces, -⟩ := scan_lossless hscan
  have htokens : tokens = pieces.map Prod.fst := (List.append_inj' hresult rfl).1
  exact ⟨hscan, first, pieces, hsource, htokens.symm, hfirst, hpieces⟩

end Reckoner.Token
