import Reckoner.Proofs.Program

/-!
# Reckoner.Proofs.Recovery — a semicolon keeps faults apart

No expression holds a semicolon, so reading never goes past one, and recovery stops behind one at
the latest. Hence nothing that stands in front of a semicolon can see what follows it: every step of
reading either stays in front of the semicolon or goes on right behind it (`Lands`), whatever
follows and whichever line the tokens end on.

Main statement: `parseProgram_append_semicolon`. What is found in tokens with a semicolon between
them is what is found up to the semicolon, followed by what is found behind it.
-/

namespace Reckoner.Tree

/-- `Lands semicolon before f`: what is left, as a function `f` of what follows the semicolon, starts
with one of the tokens `before` it, with the semicolon, or right behind it. -/
def Lands (semicolon : Token) (before : List Token) (f : List Token → List Token) : Prop :=
  (∃ left, left <:+ before ∧ ∀ rest, f rest = left ++ semicolon :: rest) ∨ ∀ rest, f rest = rest

theorem Lands.mono {semicolon : Token} {before before' : List Token}
    {f : List Token → List Token} (h : Lands semicolon before f) (hsuffix : before <:+ before') :
    Lands semicolon before' f := by
  rcases h with ⟨left, hleft, hf⟩ | hf
  · exact .inl ⟨left, hleft.trans hsuffix, hf⟩
  · exact .inr hf

section
variable {semicolon : Token} (hsemi : semicolon.kind = .semicolon)
include hsemi

/-- Reading an expression stops in front of the first semicolon at the latest, and its answer has
nothing to do with what follows. -/
theorem readOnto_semicolon (before : List Token) (stack : List Frame) (value? : Option Tree) :
    ∃ answer left, left <:+ before ∧ ∀ endLine rest,
      readOnto endLine stack value? (before ++ semicolon :: rest)
        = (answer, left ++ semicolon :: rest) := by
  induction before generalizing stack value? with
  | nil =>
    obtain ⟨answer, hhalt⟩ := halt_of_kind (.inl hsemi) stack value?
    exact ⟨answer, [], List.suffix_refl _, readOnto_halt hhalt⟩
  | cons tok before ih =>
    rcases shift_or_halt tok stack value? with ⟨stack', value?', hshift⟩ | ⟨answer, hhalt⟩
    · obtain ⟨answer, left, hleft, hread⟩ := ih stack' value?'
      refine ⟨answer, left, hleft.trans (List.suffix_cons _ _), ?_⟩
      intro endLine rest
      rw [List.cons_append, readOnto_shift hshift, hread]
    · refine ⟨answer, tok :: before, List.suffix_refl _, ?_⟩
      intro endLine rest
      exact readOnto_halt hhalt endLine (before ++ semicolon :: rest)

omit hsemi in
/-- Behind a semicolon nothing is skipped. -/
theorem skipFrom_behind (tokens : List Token) : skipFrom .semicolon tokens = tokens := by
  cases tokens with
  | nil => rfl
  | cons tok rest => simp [skipFrom]

/-- Skipping stops behind the semicolon at the latest. -/
theorem lands_skipFrom {before : List Token} (hbefore : ∀ tok ∈ before, tok.isEnd = false)
    (previous : TokenKind) :
    Lands semicolon before fun rest => skipFrom previous (before ++ semicolon :: rest) := by
  induction before generalizing previous with
  | nil =>
    by_cases hprev : previous = .semicolon
    · subst hprev
      exact .inl ⟨[], List.suffix_refl _, fun rest => skipFrom_behind _⟩
    · refine .inr fun rest => ?_
      simp [skipFrom, hprev, hsemi, Token.isEnd, TokenKind.startsStatement, skipFrom_behind]
  | cons tok before ih =>
    by_cases hstop : (tok.isEnd || previous = .semicolon || tok.kind.startsStatement) = true
    · refine .inl ⟨tok :: before, List.suffix_refl _, fun rest => ?_⟩
      simp only [List.cons_append, skipFrom, if_pos hstop]
    · have hrest := ih (fun x hx => hbefore x (List.mem_cons_of_mem _ hx)) tok.kind
      simp only [List.cons_append, skipFrom, if_neg hstop]
      exact hrest.mono (List.suffix_cons _ _)

/-- So does recovery; from a token in front of the semicolon it goes past that token. -/
theorem lands_recover {tok : Token} {before : List Token} (htok : tok.isEnd = false)
    (hbefore : ∀ x ∈ before, x.isEnd = false) :
    Lands semicolon before fun rest => recover (tok :: (before ++ semicolon :: rest)) := by
  simp only [recover, htok, Bool.false_eq_true, if_false]
  exact lands_skipFrom hsemi hbefore tok.kind

theorem recover_semicolon (rest : List Token) : recover (semicolon :: rest) = rest := by
  simp [recover, Token.isEnd, hsemi, skipFrom_behind]

/-- A turn that starts in front of the semicolon has an outcome of its own and goes on in front of
the semicolon or right behind it. -/
theorem turn_semicolon {tok : Token} {before : List Token} (htok : tok.isEnd = false)
    (hbefore : ∀ x ∈ before, x.isEnd = false) :
    ∃ outcome f, Lands semicolon before f ∧ ∀ endLine rest,
      turn endLine (tok :: (before ++ semicolon :: rest)) = (outcome, f rest) := by
  obtain ⟨answer, left, hleft, hread⟩ := readOnto_semicolon hsemi (tok :: before) [] none
  rcases left with _ | ⟨x, left⟩
  · -- reading came as far as the semicolon
    refine ⟨answer, id, .inr fun _ => rfl, fun endLine rest => ?_⟩
    cases answer with
    | ok t => exact turn_of_separated (hread endLine rest) hsemi
    | error d => exact (turn_of_error (hread endLine rest)).trans (by simp [recover_semicolon hsemi])
  · have hx : x.isEnd = false := by
      rcases List.mem_cons.mp (hleft.subset (List.mem_cons_self ..)) with rfl | hmem
      · exact htok
      · exact hbefore x hmem
    have hbehind : left <:+ before := by
      rcases List.suffix_cons_iff.mp hleft with heq | hsuffix
      · exact (List.cons.inj heq).2 ▸ List.suffix_refl _
      · exact (List.suffix_cons _ _).trans hsuffix
    have hlands := lands_recover hsemi hx fun y hy => hbefore y (hbehind.subset hy)
    cases answer with
    | error d =>
      exact ⟨.error d, _, hlands.mono hbehind, fun endLine rest =>
        turn_of_error (hread endLine rest)⟩
    | ok t =>
      by_cases hs : x.kind = .semicolon
      · exact ⟨.ok t, _, .inl ⟨left, hbehind, fun _ => rfl⟩, fun endLine rest =>
          turn_of_separated (hread endLine rest) hs⟩
      · exact ⟨.error (x.misplaced .separator), _, hlands.mono hbehind, fun endLine rest =>
          turn_of_unseparated (hread endLine rest) hs hx⟩

/-- At the semicolon itself an expression is missing, and reading goes on behind it. -/
theorem turn_at_semicolon : ∃ outcome, ∀ endLine rest,
    turn endLine (semicolon :: rest) = (outcome, rest) := by
  obtain ⟨answer, hhalt⟩ := halt_of_kind (.inl hsemi) [] none
  refine ⟨answer, fun endLine rest => ?_⟩
  have hread : read endLine (semicolon :: rest) = (answer, semicolon :: rest) :=
    readOnto_halt hhalt endLine rest
  cases answer with
  | ok t => exact turn_of_separated hread hsemi
  | error d => rw [turn_of_error hread, recover_semicolon hsemi]

/-- What is found up to a semicolon does not depend on what follows, and stands in front of what is
found behind it. -/
theorem readProgram_semicolon {before : List Token} (hbefore : ∀ x ∈ before, x.isEnd = false) :
    ∃ found : Program, ∀ endLine rest,
      (readProgram endLine (before ++ semicolon :: rest)).1
        = found ++ (readProgram endLine rest).1 := by
  have hsemiEnd : semicolon.isEnd = false := by simp [Token.isEnd, hsemi]
  -- by the length of what stands in front of the semicolon: a turn leaves less of it, or none
  induction hn : before.length using Nat.strongRecOn generalizing before with
  | ind n ih =>
    rcases before with _ | ⟨tok, before⟩
    · obtain ⟨outcome, hturn⟩ := turn_at_semicolon hsemi
      refine ⟨Program.empty.push outcome, fun endLine rest => ?_⟩
      rw [List.nil_append, readProgram_turn hsemiEnd (hturn endLine rest), Program.push_append,
        Program.empty_append]
    · have htok : tok.isEnd = false := hbefore tok (by simp)
      have htail : ∀ x ∈ before, x.isEnd = false := fun x hx => hbefore x (by simp [hx])
      obtain ⟨outcome, f, hlands, hturn⟩ := turn_semicolon hsemi htok htail
      rcases hlands with ⟨left, hleft, hf⟩ | hf
      · have hlt : left.length < n := by
          rw [← hn, List.length_cons]
          exact Nat.lt_succ_of_le hleft.length_le
        obtain ⟨found, hfound⟩ := ih _ hlt (fun x hx => htail x (hleft.subset hx)) rfl
        refine ⟨found.push outcome, fun endLine rest => ?_⟩
        rw [List.cons_append, readProgram_turn htok (hturn endLine rest), hf, hfound,
          Program.push_append]
      · refine ⟨Program.empty.push outcome, fun endLine rest => ?_⟩
        rw [List.cons_append, readProgram_turn htok (hturn endLine rest), hf, Program.push_append,
          Program.empty_append]

end

/-- The line that tokens end on is that of their last ones. -/
theorem endLineOf_append {before rest : List Token} (h : rest ≠ []) :
    endLineOf (before ++ rest) = endLineOf rest := by
  rw [endLineOf, endLineOf, List.getLast?_append, List.getLast?_eq_some_getLast h, Option.some_or]

/-- **Faults stay in front of the next semicolon.** Tokens with a semicolon between them give the
trees and the diagnostics of the part up to the semicolon, followed by those of the part behind it
read on its own. -/
theorem parseProgram_append_semicolon (before rest : List Token) (semicolon : Token)
    (hbefore : ∀ tok ∈ before, tok.kind ≠ .eof) (hsemi : semicolon.kind = .semicolon) :
    (parseProgram (before ++ semicolon :: rest)).trees
      = (parseProgram (before ++ [semicolon])).trees ++ (parseProgram rest).trees ∧
    (parseProgram (before ++ semicolon :: rest)).diagnostics
      = (parseProgram (before ++ [semicolon])).diagnostics ++ (parseProgram rest).diagnostics := by
  have hends : ∀ x ∈ before, x.isEnd = false := fun x hx => by
    simpa [Token.isEnd] using hbefore x hx
  obtain ⟨found, hfound⟩ := readProgram_semicolon hsemi hends
  have hfront : parseProgram (before ++ [semicolon]) = found := by
    rw [parseProgram_eq, hfound, readProgram_nil, Program.append_empty]
  have hwhole : parseProgram (before ++ semicolon :: rest) = found ++ parseProgram rest := by
    rw [parseProgram_eq, hfound, parseProgram_eq]
    rcases rest with _ | ⟨tok, rest⟩
    · rw [readProgram_nil, readProgram_nil]
    · rw [← List.singleton_append, ← List.append_assoc, endLineOf_append (by simp)]
  rw [hfront, hwhole]
  exact ⟨rfl, rfl⟩

/-- Two faults with a semicolon between them: `(nil print + ; ) ; nil`. -/
theorem parseProgram_append_semicolon_twice :
    let tok (k : TokenKind) : Token := ⟨k, [], .nil, 1⟩
    let before := [tok .leftParen, tok .nilWord, tok .printWord, tok .plus]
    let rest := [tok .rightParen, tok .semicolon, tok .nilWord]
    (∀ t ∈ before, t.kind ≠ .eof) ∧ (tok .semicolon).kind = .semicolon ∧
      (parseProgram (before ++ tok .semicolon :: rest)).trees
        = (parseProgram (before ++ [tok .semicolon])).trees ++ (parseProgram rest).trees ∧
      (parseProgram (before ++ tok .semicolon :: rest)).diagnostics
        = (parseProgram (before ++ [tok .semicolon])).diagnostics
          ++ (parseProgram rest).diagnostics := by
  intro tok before rest
  have hbefore : ∀ t ∈ before, t.kind ≠ .eof := by decide
  exact ⟨hbefore, rfl, parseProgram_append_semicolon before rest (tok .semicolon) hbefore rfl⟩

end Reckoner.Tree
