import Reckoner.Proofs.Joining
import Reckoner.Proofs.Turns

/-!
# Reckoner.Proofs.Single — one expression or a program

Tokens can be read as a single expression or as a program. Both read an expression first and then
look behind it, each in its own way: a single expression has to end there, behind a semicolon or
not, while a program goes on. So both find the same tree where there is nothing else, and a failure
to read a single expression shows in the first turn of the program (`Missed`).

Main statement: `single_agrees_with_program`.
-/

namespace Reckoner

namespace Tree

theorem readProgram_of_atEnd {endLine : Int} {tokens : List Token} (h : atEnd tokens = true) :
    readProgram endLine tokens = (.empty, tokens) := by
  cases tokens with
  | nil => exact readProgram_nil endLine
  | cons tok rest => exact readProgram_end h

/-- Something is found wherever there is a token in front of the end. -/
theorem atEnd_of_empty {endLine : Int} {tokens : List Token}
    (h : (readProgram endLine tokens).1 = .empty) : atEnd tokens = true := by
  cases tokens with
  | nil => rfl
  | cons tok rest =>
    cases hend : tok.isEnd with
    | true => exact hend
    | false =>
      rcases hturn : turn endLine (tok :: rest) with ⟨d | t, more⟩
      · rw [readProgram_turn hend hturn] at h
        exact absurd (congrArg Program.diagnostics h) (List.cons_ne_nil _ _)
      · rw [readProgram_turn hend hturn] at h
        exact absurd (congrArg Program.trees h) (List.cons_ne_nil _ _)

/-- A single expression is an item with nothing behind it. -/
theorem parseSingle_eq_ok_iff_item {tokens : List Token} {t : Tree} :
    parseSingle tokens = .ok t ↔
      ∃ more, readItem (endLineOf tokens) tokens = (.ok t, more) ∧ atEnd more = true := by
  rw [parseSingle, single_eq_ok_iff]
  constructor
  · rintro ⟨used, rest, heq, d, hend | ⟨semicolon, more, hsemi, rfl, hend⟩⟩
    · exact ⟨rest, readItem_eq_ok_iff.2 ⟨used, d, .inr ⟨heq, hend⟩⟩, hend⟩
    · exact ⟨more, readItem_eq_ok_iff.2 ⟨used, d, .inl ⟨semicolon, hsemi, heq⟩⟩, hend⟩
  · rintro ⟨more, hitem, hend⟩
    obtain ⟨used, d, ⟨semicolon, hsemi, heq⟩ | ⟨heq, -⟩⟩ := readItem_eq_ok_iff.1 hitem
    · exact ⟨used, semicolon :: more, heq, d, .inr ⟨semicolon, more, hsemi, rfl, hend⟩⟩
    · exact ⟨used, more, heq, d, .inl hend⟩

/-- A program of one tree is an item with nothing behind it. -/
theorem parseProgram_eq_singleton_iff {tokens : List Token} {t : Tree} :
    parseProgram tokens = ⟨[t], []⟩ ↔
      ∃ more, readItem (endLineOf tokens) tokens = (.ok t, more) ∧ atEnd more = true := by
  rw [parseProgram_eq]
  generalize endLineOf tokens = endLine
  constructor
  · intro hprogram
    cases hend : atEnd tokens with
    | true =>
      rw [readProgram_of_atEnd hend] at hprogram
      cases hprogram
    | false =>
      rcases tokens with _ | ⟨tok, rest⟩
      · cases hend
      have hclean : (readProgram endLine (tok :: rest)).1.diagnostics = [] := by rw [hprogram]
      obtain ⟨u, more, hitem, hpush, -⟩ := item_of_clean hend hclean
      obtain ⟨hcons, hdiagnostics⟩ := Program.mk.inj (hpush.symm.trans hprogram)
      obtain ⟨rfl, htrees⟩ := List.cons.inj hcons
      have hempty : (readProgram endLine more).1 = ⟨[], []⟩ := by
        rw [← htrees, ← hdiagnostics]
      exact ⟨more, hitem, atEnd_of_empty hempty⟩
  · rintro ⟨more, hitem, hend⟩
    obtain ⟨used, d, hsplit⟩ := readItem_eq_ok_iff.1 hitem
    obtain ⟨rest, rfl⟩ : ∃ rest, tokens = used ++ rest := by
      rcases hsplit with ⟨semicolon, -, heq⟩ | ⟨heq, -⟩
      · exact ⟨_, heq⟩
      · exact ⟨_, heq⟩
    rw [readProgram_item d hitem, readProgram_of_atEnd hend]
    rfl

end Tree

namespace Descent

open Reckoner.Tree (endLineOf)

/-- What a turn gives. -/
def Turn.answer : Turn → Except Diagnostic Tree
  | .tree t => .ok t
  | .slip s => .error s.diagnostic

/-- Where there is a token in front of the end, the first turn reads the first item. -/
theorem exists_first_turn {tokens rest : List Token} {answer : Except Diagnostic Tree}
    (hmore : Tree.atEnd tokens = false)
    (hitem : Tree.readItem (endLineOf tokens) tokens = (answer, rest)) :
    ∃ turn turns, Turns tokens 0 (turn :: turns) (endOf tokens) ∧
      Tree.parseProgram tokens = found (turn :: turns) ∧ turn.answer = answer := by
  have hfaces := Faces.start tokens
  obtain ⟨turns, hturns, hread⟩ := exists_turns tokens 0 (Nat.zero_le _) hfaces
  have hfound : Tree.parseProgram tokens = found turns := by
    rw [Tree.parseProgram_eq, hread]
  -- what an item at the first token gives is what reading by frames gives
  have hsame : ∀ {given pos'}, item tokens (limit tokens) 0 = some (given, pos') →
      given = answer := by
    intro given pos' h
    obtain ⟨rest', hread', -⟩ := readItem_of_item (Nat.zero_le _) h
    rw [List.drop_zero] at hread'
    exact congrArg Prod.fst (hread'.symm.trans hitem)
  generalize endOf tokens = stop at hturns ⊢
  cases hturns with
  | done hend =>
    rw [hfaces.atEnd, hmore] at hend
    cases hend
  | @tree _ _ _ t turns hat hrun hturns =>
    exact ⟨.tree t, turns, .tree hat hrun hturns, hfound, hsame hrun⟩
  | @slip _ _ s turns hat hrun hresume hturns =>
    exact ⟨.slip s, turns, .slip hat hrun hresume hturns, hfound, hsame hrun⟩

end Descent

namespace Session

open Reckoner.Tree (parseSingle parseProgram endLineOf)
open Descent (Slip Turn Turns endOf found)
open Grammar (Derives)

/-- `Missed tokens e`: what the program of the tokens shows of the diagnostic `e` that a single
expression is not read with. -/
inductive Missed (tokens : List Token) (e : Diagnostic) : Prop
  /-- There is no token in front of the end; a program may be empty. -/
  | nothing (hend : endOf tokens = 0) (hprogram : parseProgram tokens = ⟨[], []⟩)
  /-- The first turn of the program fails at the same token. It says the same as well, unless the
  single expression was complete. -/
  | fault {s : Slip} {turns : List Turn}
      (hturns : Turns tokens 0 (.slip s :: turns) (endOf tokens))
      (hprogram : parseProgram tokens = found (.slip s :: turns))
      (hkind : s.diagnostic.kind = e.kind) (hline : s.diagnostic.line = e.line)
      (hplace : s.diagnostic.place = e.place)
      (hdetail : e.detail ≠ utf8 "Expect end of expression." → s.diagnostic = e)
  /-- The first turn of the program finds an expression with a semicolon behind it; the diagnostic
  is about the token behind the semicolon. -/
  | more {used rest : List Token} {semicolon tok : Token} {t : Tree} {turns : List Turn}
      (htokens : tokens = used ++ semicolon :: tok :: rest) (hderives : Derives .expression used t)
      (hsemi : semicolon.kind = .semicolon) (hmore : tok.kind ≠ .eof)
      (hturns : Turns tokens 0 (.tree t :: turns) (endOf tokens))
      (hprogram : parseProgram tokens = found (.tree t :: turns))
      (he : e = .expectedToken tok.line tok.place (utf8 "Expect end of expression."))

/-- The first turn fails. -/
theorem exists_slip {tokens rest : List Token} {d : Diagnostic} (hmore : Tree.atEnd tokens = false)
    (hitem : Tree.readItem (endLineOf tokens) tokens = (.error d, rest)) :
    ∃ s turns, Turns tokens 0 (.slip s :: turns) (endOf tokens) ∧
      parseProgram tokens = found (.slip s :: turns) ∧ s.diagnostic = d := by
  obtain ⟨turn, turns, hturns, hfound, hanswer⟩ := Descent.exists_first_turn hmore hitem
  cases turn with
  | tree t => cases hanswer
  | slip s => exact ⟨s, turns, hturns, hfound, Except.error.inj hanswer⟩

/-- A single expression that is not read is missed in the first turn of the program, or else there
is nothing to read. -/
theorem missed_of_error {tokens : List Token} {e : Diagnostic}
    (h : parseSingle tokens = .error e) : Missed tokens e := by
  cases hat : Tree.atEnd tokens with
  | true =>
    have hend : Descent.atEnd tokens 0 = true := (Descent.Faces.start tokens).atEnd.trans hat
    refine .nothing ((Descent.atEnd_iff (Nat.zero_le _)).1 hend).symm ?_
    rw [Tree.parseProgram_eq, Tree.readProgram_of_atEnd hat]
    rfl
  | false =>
    rcases hread : Tree.read (endLineOf tokens) tokens with ⟨d | t, rest⟩
    · -- no expression: both fail where reading it fails
      rw [parseSingle, Reading.single_of_error (r := Reading.start tokens) hread] at h
      obtain rfl : d = e := Except.error.inj h
      have hitem : Tree.readItem (endLineOf tokens) tokens = (.error d, rest) := by
        simp [Tree.readItem, hread]
      obtain ⟨s, turns, hturns, hfound, rfl⟩ := exists_slip hat hitem
      exact .fault hturns hfound rfl rfl rfl fun _ => rfl
    · cases hbehind : Tree.atEnd (Tree.behindSemicolon rest) with
      | true =>
        rw [parseSingle, Reading.single_of_end (r := Reading.start tokens) hread hbehind] at h
        cases h
      | false =>
        rw [parseSingle, Reading.single_of_more (r := Reading.start tokens) hread hbehind] at h
        have he := (Except.error.inj h).symm
        rcases rest with _ | ⟨tok, rest⟩
        · cases hbehind
        by_cases hsemi : tok.kind = .semicolon
        · -- an expression and a semicolon: an item, and too much for a single expression
          have hitem : Tree.readItem (endLineOf tokens) tokens = (.ok t, rest) := by
            simp [Tree.readItem, hread, hsemi]
          obtain ⟨turn, turns, hturns, hfound, hanswer⟩ := Descent.exists_first_turn hat hitem
          rw [Tree.behindSemicolon, if_pos hsemi] at hbehind he
          obtain ⟨used, htokens, hderives, -⟩ := Tree.read_eq_ok_iff.1 hread
          cases turn with
          | slip s => cases hanswer
          | tree u =>
            obtain rfl : u = t := Except.ok.inj hanswer
            rcases rest with _ | ⟨next, rest⟩
            · cases hbehind
            have hnext : next.kind ≠ .eof := by simpa [Tree.atEnd, Token.isEnd] using hbehind
            exact .more htokens hderives hsemi hnext hturns hfound he
        · -- an expression and then neither a semicolon nor the end: too much for both
          rw [Tree.behindSemicolon, if_neg hsemi] at hbehind he
          have hend : tok.isEnd = false := hbehind
          have hitem : Tree.readItem (endLineOf tokens) tokens
              = (.error (tok.misplaced .separator), tok :: rest) := by
            simp [Tree.readItem, hread, hsemi, hend]
          obtain ⟨s, turns, hturns, hfound, hs⟩ := exists_slip hat hitem
          subst he
          refine .fault hturns hfound ?_ ?_ ?_ fun hne => absurd rfl hne <;> rw [hs] <;> rfl

/-- **Tokens read as a single expression and as a program agree.** They are a single expression
exactly when they are a program of that one tree and no fault. Where a single expression is not
read, the first turn of the program shows why. So a source with a single expression runs to the one
outcome that it evaluates to, or to the fault that it evaluates to. -/
theorem single_agrees_with_program (tokens : List Token) :
    (∀ t, parseSingle tokens = .ok t ↔ parseProgram tokens = ⟨[t], []⟩) ∧
    (∀ e, parseSingle tokens = .error e → Missed tokens e) ∧
    ∀ source t, Token.scan source = .ok tokens → parseSingle tokens = .ok t →
      (∃ v, t.eval = .ok v ∧ evaluate source = .ok v ∧
        runFully source = ⟨[⟨t.text, v⟩], none⟩) ∨
      ∃ e, t.eval = .error e ∧ evaluate source = .error e.fault ∧
        runFully source = ⟨[], some e.fault⟩ := by
  have hiff : ∀ t, parseSingle tokens = .ok t ↔ parseProgram tokens = ⟨[t], []⟩ := fun t =>
    Tree.parseSingle_eq_ok_iff_item.trans Tree.parseProgram_eq_singleton_iff.symm
  refine ⟨hiff, fun e => missed_of_error, ?_⟩
  intro source t hscan hsingle
  have hparse : parse source = ([t], none) := by
    rw [parse_of_scan hscan, (hiff t).1 hsingle]
    rfl
  have hrun : runFully source = evaluateAll [t] := by
    rw [runFully_of_clean (by rw [hparse]), hparse]
  rw [hrun, evaluateAll_cons]
  cases heval : t.eval with
  | ok v =>
    refine .inl ⟨v, rfl, ?_, rfl⟩
    simp only [evaluate, hscan, hsingle, heval]
  | error e =>
    refine .inr ⟨e, rfl, ?_, rfl⟩
    simp only [evaluate, hscan, hsingle, heval]

/-- A sign that clashes with its operand, with a semicolon behind it; and two expressions. -/
theorem single_agrees_with_program_sign :
    let sign : Token := ⟨.minus, utf8 "-", .nil, 1⟩
    let word : Token := ⟨.nilWord, utf8 "nil", .nil, 1⟩
    let semicolon : Token := ⟨.semicolon, utf8 ";", .nil, 1⟩
    let tokens := [sign, word, semicolon, .endMark 1]
    let t : Tree := .unary sign (.literal .nil)
    let two := [word, semicolon, word]
    let d := word.misplaced .endOfInput
    Token.scan (utf8 "-nil;") = .ok tokens ∧ parseSingle tokens = .ok t ∧
      parseProgram tokens = ⟨[t], []⟩ ∧
      (∃ e, t.eval = .error e ∧ evaluate (utf8 "-nil;") = .error e.fault ∧
        runFully (utf8 "-nil;") = ⟨[], some e.fault⟩) ∧
      parseSingle two = .error d ∧ Missed two d := by
  intro sign word semicolon tokens t two d
  have hscan : Token.scan (utf8 "-nil;") = .ok tokens := by with_unfolding_all rfl
  have hsingle : parseSingle tokens = .ok t := by with_unfolding_all rfl
  have htwo : parseSingle two = .error d := by with_unfolding_all rfl
  obtain ⟨hiff, -, hruns⟩ := single_agrees_with_program tokens
  obtain ⟨-, hmissed, -⟩ := single_agrees_with_program two
  refine ⟨hscan, hsingle, (hiff t).1 hsingle, ?_, htwo, hmissed d htwo⟩
  rcases hruns (utf8 "-nil;") t hscan hsingle with ⟨v, hv, -⟩ | hfault
  · have heval : t.eval = .error (.notNumber sign Value.nil.type) := rfl
    cases heval.symm.trans hv
  · exact hfault

end Session

end Reckoner
