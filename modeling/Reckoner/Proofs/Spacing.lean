import Reckoner.Proofs.Gaps
import Reckoner.Proofs.Layout
import Reckoner.Proofs.Newline

/-!
# Reckoner.Proofs.Spacing — tokens written apart are read again

To write tokens down, put their lexemes one behind the other with blanks between them. `Spaced` says
that a text is written so, with any blanks. Scanning undoes it: a lexeme is cut off whole in front
of a blank (`Matches.longest`), since no other pattern that the lexeme starts goes on with one, and
the blanks are cut off one by one (`Reached.blanks`).

Main statement: `scan_spaced`.
-/

namespace Reckoner

namespace Lexeme

/-- No token starts like a comment. -/
theorem Matches.not_comment {rest : Bytes} {token? : Option (TokenKind × Value)}
    (h : Matches (byte '/' :: byte '/' :: rest) token?) : token? = none := by
  have hspellings : ∀ entry ∈ spellings, entry.1.take 2 ≠ [byte '/', byte '/'] := by decide
  obtain ⟨kind, hspelled⟩ | ⟨-, -, hnone⟩ | ⟨body, -, heq⟩ :=
    h.of_mark (by decide) (by decide) (by decide)
  · exact absurd rfl (hspellings _ hspelled)
  · exact hnone
  · exact absurd (List.cons.inj heq).1 (by decide)

/-- **A token is cut off whole** at the end of a text and in front of a blank. -/
theorem Matches.longest {text more : Bytes} {token : TokenKind × Value}
    (h : Matches text (some token)) (hmore : ∀ b ∈ more.head?, isBlank b = true) :
    LongestMatch (text ++ more) text (some token) := by
  refine ⟨h, List.prefix_append .., fun text' token?' h' hpre => ?_⟩
  rcases more with _ | ⟨b, more⟩
  · rw [List.append_nil] at hpre
    exact hpre.length_le
  have hb : isBlank b = true := hmore b rfl
  rcases Bytes.prefix_or_past hpre with hinside | hpast
  · exact hinside.length_le
  have hfront : text <+: text' := (List.prefix_append ..).trans hpast
  obtain rfl | ⟨body, -, rfl⟩ | ⟨body, hbody, rfl⟩ := h'.of_blank_mem hb (hpast.subset (by simp))
  · exact List.length_pos_iff.2 h.ne_nil
  · -- a comment, whose two slashes the token would have to start with
    obtain ⟨c, rest, rfl⟩ := List.exists_cons_of_ne_nil h.ne_nil
    obtain ⟨rfl, hrest⟩ := List.cons_prefix_cons.1 hpast
    rcases rest with _ | ⟨c, rest⟩
    · obtain ⟨rfl, -⟩ := List.cons_prefix_cons.1 hrest
      exact absurd hb (by decide)
    · obtain ⟨rfl, -⟩ := List.cons_prefix_cons.1 hrest
      cases h.not_comment
  · have heq := h.eq_of_prefix_string hbody hfront
    exact Nat.le_of_eq (congrArg List.length heq.symm)

end Lexeme

namespace Token

open Lexeme

/-! ## Texts with blanks between them -/

/-- `Spaced texts whole`: the texts one behind the other with blanks, one at least, between
neighbours. -/
inductive Spaced : List Bytes → Bytes → Prop
  | nothing : Spaced [] []
  | last (text : Bytes) : Spaced [text] text
  | more {text gap following whole : Bytes} {texts : List Bytes} (hne : gap ≠ [])
      (hgap : ∀ b ∈ gap, b ∈ [byte ' ', byte '\t', byte '\r', byte '\n'])
      (h : Spaced (following :: texts) whole) :
      Spaced (text :: following :: texts) (text ++ (gap ++ whole))

/-- Blanks are cut off one by one. -/
theorem Reached.blanks {source before gap rest : Bytes} {tokens : List Token}
    (hgap : ∀ b ∈ gap, b ∈ [byte ' ', byte '\t', byte '\r', byte '\n'])
    (h : Reached source ⟨before, tokens, gap ++ rest⟩) :
    Reached source ⟨before ++ gap, tokens, rest⟩ := by
  induction gap generalizing before with
  | nil => rwa [List.append_nil]
  | cons b gap ih =>
    obtain ⟨hb, hgap⟩ := List.forall_mem_cons.1 hgap
    have hcut := next_blank ((isBlank_iff_mem b).2 hb) (gap ++ rest)
    have hplace := ih hgap (h.tail (by simpa [ofMatch] using step_of_next hcut))
    rwa [List.append_assoc] at hplace

/-- A token at the front of a text is cut off whole in front of a blank. -/
theorem reached_first {t : Token} {more : Bytes} (h : Matches t.lexeme (some (t.kind, t.literal)))
    (hmore : ∀ b ∈ more.head?, isBlank b = true) :
    Reached (t.lexeme ++ more)
      ⟨t.lexeme, [⟨t.kind, t.lexeme, t.literal, lineAfter []⟩], more⟩ :=
  .single (.cut (h.longest hmore))

theorem SameWord.reline {t u : Token} (h : t.SameWord u) (f : Int → Int) :
    t.SameWord (u.reline f) := h

/-- **Tokens that are written apart are read again.** -/
theorem reached_of_spaced {tokens : List Token} {whole : Bytes}
    (hmatches : ∀ t ∈ tokens, Matches t.lexeme (some (t.kind, t.literal)))
    (h : Spaced (tokens.map lexeme) whole) :
    ∃ tokens', Reached whole ⟨whole, tokens', []⟩ ∧ List.Forall₂ SameWord tokens tokens' := by
  generalize htexts : tokens.map lexeme = texts at h
  induction h generalizing tokens with
  | nothing =>
    obtain rfl := List.map_eq_nil_iff.1 htexts
    exact ⟨[], .refl, .nil⟩
  | last text =>
    obtain ⟨t, rfl, rfl⟩ := List.map_eq_singleton_iff.1 htexts
    have hend : Reached (t.lexeme ++ []) _ := reached_first (hmatches t (by simp)) (by simp)
    rw [List.append_nil] at hend
    exact ⟨_, hend, .cons ⟨rfl, rfl, rfl⟩ .nil⟩
  | @more text gap following whole texts hne hgap _ ih =>
    obtain ⟨t, rest, rfl, rfl, hrest⟩ := List.map_eq_cons_iff.1 htexts
    obtain ⟨ht, hmatches⟩ := List.forall_mem_cons.1 hmatches
    obtain ⟨tokens', hreached, hwords⟩ := ih hmatches hrest
    have hblank : ∀ b ∈ (gap ++ whole).head?, isBlank b = true := by
      obtain ⟨b, gap, rfl⟩ := List.exists_cons_of_ne_nil hne
      rintro _ ⟨⟩
      exact (isBlank_iff_mem b).2 (hgap b (by simp))
    have hplace := (Reached.blanks hgap (reached_first ht hblank)).behind hreached
    rw [Place.behind, List.append_assoc] at hplace
    refine ⟨_, hplace, .cons ⟨rfl, rfl, rfl⟩ ?_⟩
    exact List.forall₂_map_right_iff.2 (hwords.imp fun _ _ hword => hword.reline _)

/-! ## Whole sources -/

/-- The punctuation marks. -/
def punctuation : Bytes :=
  ['(', ')', '\x7b', '\x7d', ',', '.', '-', '+', ';', '*', '!', '=', '<', '>', '/'].map byte

/-- A punctuation mark as a token. -/
def ofMark (m : UInt8) : Token := ⟨(spellings.lookup [m]).getD .unknown, [m], .nil, 1⟩

theorem matches_ofMark {m : UInt8} (h : m ∈ punctuation) :
    Matches (ofMark m).lexeme (some ((ofMark m).kind, (ofMark m).literal)) := by
  have hall : punctuation.all (fun m => decide (([m], (ofMark m).kind) ∈ spellings)) = true := by
    decide
  exact .spelling (of_decide_eq_true (List.all_eq_true.1 hall m h))

/-- **Scanning undoes writing.** The lexemes of a scanned source, with any blanks between them, are
scanned to the same words again, with an end mark behind them. So punctuation marks with blanks
between them give one token each, and the end mark. -/
theorem scan_spaced :
    (∀ (source : Bytes) (result : List Token), scan source = .ok result →
      ∃ (tokens : List Token) (line : Int), result = tokens ++ [endMark line] ∧
        ∀ whole, Spaced (tokens.map lexeme) whole →
          ∃ tokens' line', scan whole = .ok (tokens' ++ [endMark line']) ∧
            List.Forall₂ SameWord tokens tokens') ∧
    ∀ (marks whole : Bytes), (∀ m ∈ marks, m ∈ punctuation) →
      Spaced (marks.map fun m => [m]) whole →
      ∃ tokens, scan whole = .ok tokens ∧ tokens.length = marks.length + 1 := by
  constructor
  · intro source result h
    obtain ⟨tokens, hreached, rfl⟩ := scan_eq_ok_iff.1 h
    refine ⟨tokens, _, rfl, fun whole hspaced => ?_⟩
    obtain ⟨tokens', hwhole, hwords⟩ := reached_of_spaced hreached.matches hspaced
    exact ⟨tokens', _, scan_of_end hwhole, hwords⟩
  · intro marks whole hmarks hspaced
    have hmatches : ∀ t ∈ marks.map ofMark, Matches t.lexeme (some (t.kind, t.literal)) := by
      simp only [List.forall_mem_map]
      exact fun m hm => matches_ofMark (hmarks m hm)
    have hlexemes : (marks.map ofMark).map lexeme = marks.map fun m => [m] := by
      rw [List.map_map]
      rfl
    obtain ⟨tokens', hwhole, hwords⟩ := reached_of_spaced hmatches (hlexemes ▸ hspaced)
    refine ⟨_, scan_of_end hwhole, ?_⟩
    rw [List.length_append, ← hwords.length_eq, List.length_map]
    rfl

/-- Two slashes and two equality signs do not become a comment or a longer sign, and the slashes in
a string stay there. -/
theorem scan_spaced_slashes :
    let source := utf8 "/ /\"//\""
    let slash : Token := ⟨.slash, utf8 "/", .nil, 1⟩
    let string : Token := ⟨.string, utf8 "\"//\"", .string (utf8 "//"), 1⟩
    let whole := utf8 "/" ++
      ([byte '\n', byte '\t'] ++ (utf8 "/" ++ ([byte '\r'] ++ utf8 "\"//\"")))
    let signs := [byte '='] ++ ([byte ' '] ++ [byte '='])
    scan source = .ok [slash, slash, string, endMark 1] ∧
      Spaced ([slash, slash, string].map lexeme) whole ∧
      (∃ tokens line, scan whole = .ok (tokens ++ [endMark line]) ∧
        List.Forall₂ SameWord [slash, slash, string] tokens) ∧
      Spaced ([byte '=', byte '='].map fun m => [m]) signs ∧
      ∃ tokens, scan signs = .ok tokens ∧ tokens.length = 3 := by
  intro source slash string whole signs
  have hscan : scan source = .ok ([slash, slash, string] ++ [endMark 1]) := by
    with_unfolding_all rfl
  have hwhole : Spaced ([slash, slash, string].map lexeme) whole :=
    .more (by simp) (by simp) (.more (by simp) (by simp) (.last _))
  have hsigns : Spaced ([byte '=', byte '='].map fun m => [m]) signs :=
    .more (by simp) (by simp) (.last _)
  obtain ⟨tokens, line, heq, hread⟩ := scan_spaced.1 source _ hscan
  obtain ⟨rfl, -⟩ := List.append_inj' heq rfl
  exact ⟨hscan, hwhole, hread whole hwhole, hsigns,
    scan_spaced.2 [byte '=', byte '='] signs (by simp [punctuation]) hsigns⟩

end Token

end Reckoner
