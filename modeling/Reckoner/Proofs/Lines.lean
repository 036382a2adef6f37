import Reckoner.Proofs.Program
import Reckoner.Session

/-!
# Reckoner.Proofs.Lines — lines are carried along and never looked at

Tokens know their lines so that faults can be reported there. Nothing else depends on them: to read
and evaluate tokens whose lines were changed by any function is to read and evaluate the tokens and
to change the lines of what comes out. `reline f` changes lines, for tokens, trees, diagnostics and
faults alike, and each stage has one equation that takes it through: `readOnto_reline`,
`turn_reline`, `parseProgram_reline`, `eval_reline` and `evaluateOnto_reline`.
-/

namespace Reckoner

/-! ## Changing lines -/

/-- The token on another line. -/
def Token.reline (f : Int → Int) (t : Token) : Token := { t with line := f t.line }

/-- The diagnostic at another line. -/
def Diagnostic.reline (f : Int → Int) (d : Diagnostic) : Diagnostic := { d with line := f d.line }

/-- The tree with its operators on other lines. -/
def Tree.reline (f : Int → Int) : Tree → Tree
  | missing => missing
  | literal v => literal v
  | group inner => group (inner.reline f)
  | unary op operand => unary (op.reline f) (operand.reline f)
  | binary left op right => binary (left.reline f) (op.reline f) (right.reline f)

/-- The frame with its operators on other lines. -/
def Tree.Frame.reline (f : Int → Int) : Frame → Frame
  | .unary op => .unary (op.reline f)
  | .binary left op => .binary (left.reline f) (op.reline f)
  | .paren => .paren

/-- The trees and diagnostics at other lines. -/
def Tree.Program.reline (f : Int → Int) (p : Program) : Program :=
  ⟨p.trees.map (Tree.reline f), p.diagnostics.map (Diagnostic.reline f)⟩

/-- The fault of evaluation with its operator on another line. -/
def EvalFault.reline (f : Int → Int) : EvalFault → EvalFault
  | notNumber op got => notNumber (op.reline f) got
  | notAddable op left right => notAddable (op.reline f) left right
  | notNumbers op left right => notNumbers (op.reline f) left right
  | noUnary kind => noUnary kind
  | noBinary kind => noBinary kind
  | noTree => noTree

namespace Fault

mutual

/-- The fault with all its diagnostics at other lines. -/
def reline (f : Int → Int) : Fault → Fault
  | diagnostic d => diagnostic (d.reline f)
  | plain text => plain text
  | interrupted cause => interrupted cause
  | wrapped context inner => wrapped context (inner.reline f)
  | joined members => joined (relineAll f members)

/-- The faults with all their diagnostics at other lines. -/
def relineAll (f : Int → Int) : List Fault → List Fault
  | [] => []
  | member :: rest => member.reline f :: relineAll f rest

end

theorem relineAll_eq_map (f : Int → Int) (faults : List Fault) :
    relineAll f faults = faults.map (reline f) := by
  induction faults with
  | nil => rw [relineAll, List.map_nil]
  | cons fault rest ih => rw [relineAll, ih, List.map_cons]

/-- Joined diagnostics change their lines one by one. -/
theorem join?_reline (f : Int → Int) (ds : List Diagnostic) :
    join? ((ds.map (Diagnostic.reline f)).map diagnostic)
      = (join? (ds.map diagnostic)).map (reline f) := by
  cases ds with
  | nil => rfl
  | cons d ds =>
    simp only [join?, List.map_cons, List.isEmpty_cons, Bool.false_eq_true, if_false,
      Option.map_some, reline, relineAll_eq_map, List.map_map]
    rfl

end Fault

/-- The run with its fault at other lines. -/
def Run.reline (f : Int → Int) (r : Run) : Run := ⟨r.outcomes, r.fault.map (Fault.reline f)⟩

namespace Token

variable (t : Token) (f : Int → Int)

@[simp]
theorem reline_kind : (t.reline f).kind = t.kind := rfl

@[simp]
theorem reline_isEnd : (t.reline f).isEnd = t.isEnd := rfl

theorem endMark_reline (line : Int) : (endMark line).reline f = endMark (f line) := rfl

@[simp]
theorem misplaced_reline (wanted : Wanted) :
    (t.reline f).misplaced wanted = (t.misplaced wanted).reline f := by
  cases wanted <;> rfl

end Token

namespace Tree

variable (f : Int → Int)

/-- What was read, on other lines. -/
def relineAnswer : Except Diagnostic Tree → Except Diagnostic Tree
  | .ok t => .ok (t.reline f)
  | .error d => .error (d.reline f)

theorem text_reline (t : Tree) : (t.reline f).text = t.text := by
  induction t with
  | missing => rfl
  | literal v => rfl
  | group inner ih => rw [reline, text_group, text_group, ih]
  | unary op operand ih => rw [reline, text_unary, text_unary, ih]; rfl
  | binary left op right ihl ihr => rw [reline, text_binary, text_binary, ihl, ihr]; rfl

/-! ## Reading -/

theorem close_reline (level : Nat) (stack : List Frame) (t : Tree) :
    close level (stack.map (Frame.reline f)) (t.reline f)
      = ((close level stack t).1.map (Frame.reline f), (close level stack t).2.reline f) := by
  induction stack generalizing t with
  | nil => rfl
  | cons frame stack ih =>
    cases frame with
    | unary op => exact ih (.unary op t)
    | binary left op =>
      by_cases h : level ≤ op.kind.level?.getD 0
      · have h' : level ≤ (op.reline f).kind.level?.getD 0 := h
        simp only [List.map_cons, Frame.reline, close, if_pos h, if_pos h']
        exact ih (.binary left op t)
      · have h' : ¬ level ≤ (op.reline f).kind.level?.getD 0 := h
        simp only [List.map_cons, Frame.reline, close, if_neg h, if_neg h']
    | paren => rfl

theorem close_reline_eq {level : Nat} {stack outer : List Frame} {value t : Tree}
    (h : close level stack value = (outer, t)) :
    close level (stack.map (Frame.reline f)) (value.reline f)
      = (outer.map (Frame.reline f), t.reline f) := by
  rw [close_reline, h]

/-- A token is taken whichever lines there are. -/
theorem Shift.reline {token : Token} {stack stack' : List Frame} {value? value?' : Option Tree}
    (h : Shift token stack value? stack' value?') :
    Shift (token.reline f) (stack.map (Frame.reline f)) (value?.map (Tree.reline f))
      (stack'.map (Frame.reline f)) (value?'.map (Tree.reline f)) := by
  cases h with
  | sign h => exact .sign h
  | opening h => exact .opening h
  | operand h => exact .operand h
  | operator h hclose => exact .operator h (close_reline_eq f hclose)
  | closing h hclose => exact .closing h (close_reline_eq f hclose)

/-- A token that is not taken is answered for its line. -/
theorem Halt.reline {token : Token} {stack : List Frame} {value? : Option Tree}
    {answer : Except Diagnostic Tree} (h : Halt token stack value? answer) :
    Halt (token.reline f) (stack.map (Frame.reline f)) (value?.map (Tree.reline f))
      (relineAnswer f answer) := by
  cases h with
  | done h hclose => exact .done h (close_reline_eq f hclose)
  | noOperand hunary hparen hoperand =>
    rw [relineAnswer, ← Token.misplaced_reline]
    exact .noOperand hunary hparen hoperand
  | unclosed hlevel hparen hclose =>
    rw [relineAnswer, ← Token.misplaced_reline]
    exact .unclosed hlevel hparen (close_reline_eq f hclose)

theorem readOnto_reline (endLine : Int) (stack : List Frame) (value? : Option Tree)
    (tokens : List Token) :
    readOnto (f endLine) (stack.map (Frame.reline f)) (value?.map (Tree.reline f))
        (tokens.map (Token.reline f))
      = (relineAnswer f (readOnto endLine stack value? tokens).1,
          (readOnto endLine stack value? tokens).2.map (Token.reline f)) := by
  induction tokens generalizing stack value? with
  | nil =>
    cases value? with
    | none => rfl
    | some value =>
      simp only [List.map_nil, Option.map_some, readOnto, close_reline]
      rcases close 0 stack value with ⟨_ | ⟨frame, outer⟩, t⟩ <;> rfl
  | cons token rest ih =>
    rw [List.map_cons]
    rcases shift_or_halt token stack value? with ⟨stack', value?', hshift⟩ | ⟨answer, hhalt⟩
    · rw [readOnto_shift hshift, readOnto_shift (hshift.reline f), ih]
    · rw [readOnto_halt hhalt, readOnto_halt (hhalt.reline f), List.map_cons]

theorem skipFrom_reline (previous : TokenKind) (tokens : List Token) :
    skipFrom previous (tokens.map (Token.reline f))
      = (skipFrom previous tokens).map (Token.reline f) := by
  induction tokens generalizing previous with
  | nil => rfl
  | cons token rest ih =>
    rw [List.map_cons, skipFrom, skipFrom, Token.reline_isEnd, Token.reline_kind]
    split
    · rw [List.map_cons]
    · rw [ih]

theorem recover_reline (tokens : List Token) :
    recover (tokens.map (Token.reline f)) = (recover tokens).map (Token.reline f) := by
  cases tokens with
  | nil => rfl
  | cons token rest =>
    rw [List.map_cons, recover, recover, Token.reline_isEnd, Token.reline_kind]
    split
    · rw [List.map_cons]
    · rw [skipFrom_reline]

theorem readItem_reline (endLine : Int) (tokens : List Token) :
    readItem (f endLine) (tokens.map (Token.reline f))
      = (relineAnswer f (readItem endLine tokens).1,
          (readItem endLine tokens).2.map (Token.reline f)) := by
  have hreline : read (f endLine) (tokens.map (Token.reline f)) = _ :=
    readOnto_reline f endLine [] none tokens
  rcases hread : read endLine tokens with ⟨answer, rest⟩
  rw [← read, hread] at hreline
  cases answer with
  | error d => simp only [readItem, hread, hreline, relineAnswer]
  | ok t =>
    cases rest with
    | nil => simp only [readItem, hread, hreline, relineAnswer, List.map_nil]
    | cons token more =>
      simp only [readItem, hread, hreline, relineAnswer, List.map_cons]
      rw [Token.reline_kind, Token.reline_isEnd]
      split
      · rfl
      · split
        · rfl
        · rw [Token.misplaced_reline]
          rfl

/-- A turn of reading a program does not look at lines. -/
theorem turn_reline (endLine : Int) (tokens : List Token) :
    turn (f endLine) (tokens.map (Token.reline f))
      = (relineAnswer f (turn endLine tokens).1, (turn endLine tokens).2.map (Token.reline f)) := by
  unfold turn
  rw [readItem_reline]
  rcases readItem endLine tokens with ⟨d | t, rest⟩
  · exact congrArg (Prod.mk _) (recover_reline f rest)
  · rfl

theorem Program.push_reline (p : Program) (outcome : Except Diagnostic Tree) :
    (p.push outcome).reline f = (p.reline f).push (relineAnswer f outcome) := by
  cases outcome <;> rfl

/-- Neither does reading a program, turn after turn. -/
theorem readProgram_reline (endLine : Int) (tokens : List Token) :
    (readProgram (f endLine) (tokens.map (Token.reline f))).1
      = (readProgram endLine tokens).1.reline f := by
  -- by the length of the tokens, which every turn makes shorter
  induction hn : tokens.length using Nat.strongRecOn generalizing tokens with
  | ind n ih =>
    rcases tokens with _ | ⟨token, rest⟩
    · rw [List.map_nil, readProgram_nil, readProgram_nil]
      rfl
    cases hend : token.isEnd with
    | true =>
      rw [List.map_cons, readProgram_end ((token.reline_isEnd f).trans hend), readProgram_end hend]
      rfl
    | false =>
      rcases hturn : turn endLine (token :: rest) with ⟨outcome, more⟩
      have hreline := turn_reline f endLine (token :: rest)
      rw [hturn, List.map_cons] at hreline
      have hlt : more.length < n := by
        have hsuffix := turn_suffix endLine rest hend
        rw [hturn] at hsuffix
        rw [← hn, List.length_cons]
        exact Nat.lt_succ_of_le hsuffix.length_le
      rw [List.map_cons, readProgram_turn ((token.reline_isEnd f).trans hend) hreline,
        readProgram_turn hend hturn, Program.push_reline, ih _ hlt more rfl]

theorem endLineOf_reline {tokens : List Token} (h : tokens ≠ []) :
    endLineOf (tokens.map (Token.reline f)) = f (endLineOf tokens) := by
  rw [endLineOf, endLineOf, List.getLast?_map, List.getLast?_eq_some_getLast h]
  rfl

/-- **What is found in tokens does not depend on their lines**, which only come out again. -/
theorem parseProgram_reline {tokens : List Token} (h : tokens ≠ []) :
    parseProgram (tokens.map (Token.reline f)) = (parseProgram tokens).reline f := by
  rw [parseProgram_eq, parseProgram_eq, endLineOf_reline f h, readProgram_reline]

end Tree

/-! ## Evaluating -/

theorem EvalFault.fault_reline (f : Int → Int) (e : EvalFault) :
    (e.reline f).fault = e.fault.reline f := by
  cases e <;> simp only [EvalFault.reline, EvalFault.fault, Fault.reline] <;> rfl

theorem Value.applyUnary_reline (f : Int → Int) (op : Token) (v : Value) :
    v.applyUnary (op.reline f) = (v.applyUnary op).mapError (EvalFault.reline f) := by
  unfold Value.applyUnary
  rw [Token.reline_kind]
  split
  · rfl
  · cases v <;> rfl
  · rfl

theorem Value.applyBinary_reline (f : Int → Int) (op : Token) (left right : Value) :
    left.applyBinary (op.reline f) right
      = (left.applyBinary op right).mapError (EvalFault.reline f) := by
  have hadd : left.add (op.reline f) right = (left.add op right).mapError (EvalFault.reline f) := by
    cases left <;> cases right <;> rfl
  have hnumbers : ∀ g, left.onNumbers (op.reline f) g right
      = (left.onNumbers op g right).mapError (EvalFault.reline f) := by
    intro g
    cases left <;> cases right <;> rfl
  unfold Value.applyBinary
  rw [Token.reline_kind]
  split
  · exact hadd
  iterate 7
    · exact hnumbers _
  iterate 3
    · rfl

/-- The value of a tree does not depend on lines, and its fault only shows them. -/
theorem Tree.eval_reline (f : Int → Int) (t : Tree) :
    (t.reline f).eval = t.eval.mapError (EvalFault.reline f) := by
  induction t with
  | missing => rfl
  | literal v => rfl
  | group inner ih => exact ih
  | unary op operand ih =>
    simp only [reline, eval, ih]
    cases operand.eval with
    | error e => rfl
    | ok v => exact Value.applyUnary_reline f op v
  | binary left op right ihl ihr =>
    simp only [reline, eval, ihl, ihr]
    cases left.eval with
    | error e => rfl
    | ok l =>
      cases right.eval with
      | error e => rfl
      | ok r => exact Value.applyBinary_reline f op l r

namespace Session

/-- **Evaluating trees does not look at lines.** -/
theorem evaluateOnto_reline (f : Int → Int) (done : List Outcome) (patience : Patience)
    (trees : List Tree) :
    evaluateOnto done patience (trees.map (Tree.reline f))
      = ((evaluateOnto done patience trees).1.reline f, (evaluateOnto done patience trees).2) := by
  induction trees generalizing done patience with
  | nil => rfl
  | cons t rest ih =>
    simp only [List.map_cons, evaluateOnto, Tree.eval_reline, Tree.text_reline]
    rcases patience.ask with ⟨_ | cause, patience⟩
    · cases t.eval with
      | error e =>
        show ((⟨done.reverse, some (e.reline f).fault⟩ : Run), patience) = _
        rw [EvalFault.fault_reline]
        rfl
      | ok v => exact ih _ _
    · simp only [Run.reline, Option.map_some, Fault.reline]

end Session

end Reckoner
