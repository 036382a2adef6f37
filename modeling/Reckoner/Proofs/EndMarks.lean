import Reckoner.Proofs.Descent

/-!
# Reckoner.Proofs.EndMarks — where a token list ends

Nothing is read behind an end mark, and where no end mark is left one is seen. So a token list is
read as its normal form (`normal`), which has one end mark, at the end. What is left of the tokens
while they are read is closed in the same way (`closed`), and every step of reading commutes with
closing what is left.

Main statement: `Reading.calls_normal`. However often reading is called on, the answers and the
places where the cursor stops are those of the normal form.
-/

namespace Reckoner

/-! ## Closing what is left -/

namespace Tree

/-- Tokens up to their first end mark; if there is none, an end mark on `endLine` is put behind. -/
def closed (endLine : Int) : List Token → List Token
  | [] => [.endMark endLine]
  | tok :: rest => if tok.isEnd then [tok] else tok :: closed endLine rest

/-- The normal form of a token list: cut behind its first end mark, or with an end mark added on the
line of the last token. -/
def normal (tokens : List Token) : List Token :=
  match tokens.find? Token.isEnd with
  | some mark => tokens.takeWhile (fun tok => !tok.isEnd) ++ [mark]
  | none => tokens ++ [.endMark (endLineOf tokens)]

section closed
variable {tok : Token} {endLine : Int}

theorem closed_end (h : tok.isEnd = true) (rest : List Token) :
    closed endLine (tok :: rest) = [tok] := if_pos h

theorem closed_cons (h : tok.isEnd = false) (rest : List Token) :
    closed endLine (tok :: rest) = tok :: closed endLine rest := if_neg (by simp [h])

theorem closed_append {taken : List Token} (h : ∀ tok ∈ taken, tok.isEnd = false)
    (rest : List Token) : closed endLine (taken ++ rest) = taken ++ closed endLine rest := by
  induction taken with
  | nil => rfl
  | cons tok taken ih =>
    obtain ⟨htok, htaken⟩ := List.forall_mem_cons.1 h
    rw [List.cons_append, closed_cons htok, ih htaken, List.cons_append]

theorem current_closed (endLine other : Int) (rest : List Token) :
    current other (closed endLine rest) = current endLine rest := by
  cases rest with
  | nil => rfl
  | cons tok rest =>
    cases h : tok.isEnd with
    | true => rw [closed_end h]; rfl
    | false => rw [closed_cons h]; rfl

theorem atEnd_closed (endLine : Int) (rest : List Token) :
    atEnd (closed endLine rest) = atEnd rest := by
  have hcurrent := congrArg Token.isEnd (current_closed endLine endLine rest)
  simpa only [isEnd_current] using hcurrent

theorem behindSemicolon_closed (endLine : Int) (rest : List Token) :
    behindSemicolon (closed endLine rest) = closed endLine (behindSemicolon rest) := by
  cases rest with
  | nil => rfl
  | cons tok rest =>
    cases h : tok.isEnd with
    | true =>
      have hkind : tok.kind ≠ .semicolon := by
        intro hsemi
        simp [Token.isEnd, hsemi] at h
      simp [closed_end h, behindSemicolon, hkind]
    | false =>
      rw [closed_cons h]
      by_cases hsemi : tok.kind = .semicolon
      · simp [behindSemicolon, hsemi]
      · simp [behindSemicolon, hsemi, closed_cons h]

/-- The end mark that is seen behind the last token may as well be there. -/
theorem readOnto_endMark (endLine other : Int) (stack : List Frame) (value? : Option Tree) :
    readOnto other stack value? [.endMark endLine]
      = ((readOnto endLine stack value? []).1, [.endMark endLine]) := by
  cases value? with
  | none => rfl
  | some value =>
    have hlevel : (Token.endMark endLine).kind.level? = none := rfl
    have hparen : (Token.endMark endLine).kind ≠ .rightParen := by simp [Token.endMark]
    rcases hc : close 0 stack value with ⟨_ | ⟨frame, outer⟩, t⟩
    · rw [readOnto_halt (.done hlevel hc)]
      simp [readOnto, hc]
    · rw [readOnto_halt (.unclosed hlevel hparen hc)]
      simp [readOnto, hc]

theorem readOnto_closed (endLine other : Int) (stack : List Frame) (value? : Option Tree)
    (rest : List Token) :
    readOnto other stack value? (closed endLine rest)
      = ((readOnto endLine stack value? rest).1,
          closed endLine (readOnto endLine stack value? rest).2) := by
  induction rest generalizing stack value? with
  | nil =>
    have hnil : (readOnto endLine stack value? []).2 = [] :=
      List.suffix_nil.1 (readOnto_suffix endLine stack value? [])
    rw [hnil]
    -- the one case where the mark is not among the tokens
    exact readOnto_endMark endLine other stack value?
  | cons tok rest ih =>
    cases hend : tok.isEnd with
    | true =>
      have hkind : tok.kind = .eof := by simpa [Token.isEnd] using hend
      obtain ⟨answer, hhalt⟩ := halt_of_kind (.inr hkind) stack value?
      rw [closed_end hend, readOnto_halt hhalt, readOnto_halt hhalt, closed_end hend]
    | false =>
      rw [closed_cons hend]
      rcases shift_or_halt tok stack value? with ⟨stack', value?', hshift⟩ | ⟨answer, hhalt⟩
      · rw [readOnto_shift hshift, readOnto_shift hshift, ih]
      · rw [readOnto_halt hhalt, readOnto_halt hhalt, closed_cons hend]

theorem read_closed {rest left : List Token} {answer : Except Diagnostic Tree} (other : Int)
    (h : read endLine rest = (answer, left)) :
    read other (closed endLine rest) = (answer, closed endLine left) := by
  unfold read at h ⊢
  rw [readOnto_closed, h]

theorem skipFrom_closed (endLine : Int) (previous : TokenKind) (rest : List Token) :
    skipFrom previous (closed endLine rest) = closed endLine (skipFrom previous rest) := by
  induction rest generalizing previous with
  | nil => rfl
  | cons tok rest ih =>
    cases hend : tok.isEnd with
    | true => simp [closed_end hend, skipFrom, hend]
    | false =>
      rw [closed_cons hend]
      unfold skipFrom
      split
      · rw [closed_cons hend]
      · exact ih tok.kind

theorem recover_closed (endLine : Int) (rest : List Token) :
    recover (closed endLine rest) = closed endLine (recover rest) := by
  cases rest with
  | nil => rfl
  | cons tok rest =>
    cases hend : tok.isEnd with
    | true => simp [closed_end hend, recover, hend]
    | false => simp [closed_cons hend, recover, hend, skipFrom_closed]

theorem turn_closed {tokens more : List Token} {outcome : Except Diagnostic Tree} (other : Int)
    (h : turn endLine tokens = (outcome, more)) :
    turn other (closed endLine tokens) = (outcome, closed endLine more) := by
  rcases hread : read endLine tokens with ⟨d | t, rest⟩
  · rw [turn_of_error hread] at h
    cases h
    rw [turn_of_error (read_closed other hread), recover_closed]
  · have hread' := read_closed other hread
    rcases rest with _ | ⟨tok, behind⟩
    · obtain ⟨rfl, rfl⟩ : .ok t = outcome ∧ [] = more := by simpa [turn, readItem, hread] using h
      simp [turn, readItem, hread', closed, Token.endMark, Token.isEnd]
    by_cases hsemi : tok.kind = .semicolon
    · rw [turn_of_separated hread hsemi] at h
      cases h
      rw [closed_cons (by simp [Token.isEnd, hsemi])] at hread'
      rw [turn_of_separated hread' hsemi]
    cases hend : tok.isEnd with
    | true =>
      obtain ⟨rfl, rfl⟩ : .ok t = outcome ∧ tok :: behind = more := by
        simpa [turn, readItem, hread, hsemi, hend] using h
      rw [closed_end hend] at hread' ⊢
      simp [turn, readItem, hread', hsemi, hend]
    | false =>
      rw [turn_of_unseparated hread hsemi hend] at h
      cases h
      rw [← recover_closed]
      rw [closed_cons hend] at hread' ⊢
      rw [turn_of_unseparated hread' hsemi hend]

theorem readProgram_closed (endLine other : Int) (tokens : List Token) :
    readProgram other (closed endLine tokens)
      = ((readProgram endLine tokens).1, closed endLine (readProgram endLine tokens).2) := by
  induction tokens using program_induction endLine with
  | nil =>
    rw [readProgram_nil]
    exact readProgram_end rfl
  | stop tok rest hend =>
    rw [closed_end hend, readProgram_end hend, readProgram_end hend, closed_end hend]
  | step tok rest outcome more hend hmore hturn ih =>
    have hturn' := turn_closed other hturn
    rw [closed_cons hend] at hturn' ⊢
    rw [readProgram_turn hend hturn, readProgram_turn hend hturn', ih]

/-- The normal form is what is read of a token list. -/
theorem normal_eq (tokens : List Token) : normal tokens = closed (endLineOf tokens) tokens := by
  unfold normal
  generalize endLineOf tokens = endLine
  induction tokens with
  | nil => rfl
  | cons tok rest ih =>
    cases hend : tok.isEnd with
    | true => simp [closed_end hend, hend]
    | false =>
      rw [closed_cons hend, ← ih]
      cases hfind : rest.find? Token.isEnd <;> simp [hend, hfind]

end closed

end Tree

/-! ## Calls -/

/-- A way to go on with reading. -/
inductive Call where
  | single
  | program

/-- What a call answers. -/
inductive Answer where
  | single (answer : Except Diagnostic Tree)
  | program (found : Tree.Program)

namespace Reading

/-- Goes on with reading. -/
def call (r : Reading) : Call → Answer × Reading
  | .single => (.single r.single.1, r.single.2)
  | .program => (.program r.program.1, r.program.2)

/-- The answers to one call after the other. -/
def answers (r : Reading) : List Call → List Answer
  | [] => []
  | call :: calls => (r.call call).1 :: (r.call call).2.answers calls

theorem single_closed (r : Reading) (other : Int) :
    (⟨other, Tree.closed r.endLine r.rest⟩ : Reading).single
      = (r.single.1, ⟨other, Tree.closed r.endLine r.single.2.rest⟩) := by
  rcases hread : Tree.read r.endLine r.rest with ⟨d | t, rest⟩
  · have hread' := Tree.read_closed other hread
    rw [single_of_error hread, single_of_error hread', Tree.recover_closed]
  · have hread' := Tree.read_closed other hread
    cases hend : Tree.atEnd (Tree.behindSemicolon rest) with
    | true =>
      have hend' : Tree.atEnd (Tree.behindSemicolon (Tree.closed r.endLine rest)) = true := by
        rw [Tree.behindSemicolon_closed, Tree.atEnd_closed, hend]
      rw [single_of_end hread hend, single_of_end hread' hend', Tree.behindSemicolon_closed]
    | false =>
      have hend' : Tree.atEnd (Tree.behindSemicolon (Tree.closed r.endLine rest)) = false := by
        rw [Tree.behindSemicolon_closed, Tree.atEnd_closed, hend]
      rw [single_of_more hread hend, single_of_more hread' hend', Tree.behindSemicolon_closed,
        Tree.recover_closed, Tree.current_closed]

theorem program_closed (r : Reading) (other : Int) :
    (⟨other, Tree.closed r.endLine r.rest⟩ : Reading).program
      = (r.program.1, ⟨other, Tree.closed r.endLine r.program.2.rest⟩) := by
  have h := Tree.readProgram_closed r.endLine other r.rest
  unfold Tree.readProgram at h
  simp only [program, h]

theorem call_closed (r : Reading) (other : Int) (c : Call) :
    (⟨other, Tree.closed r.endLine r.rest⟩ : Reading).call c
      = ((r.call c).1, ⟨other, Tree.closed r.endLine (r.call c).2.rest⟩) := by
  cases c with
  | single => simp only [call, single_closed]
  | program => simp only [call, program_closed]

theorem endLine_call (r : Reading) (c : Call) : (r.call c).2.endLine = r.endLine := by
  cases c with
  | program => rfl
  | single =>
    rcases hread : Tree.read r.endLine r.rest with ⟨d | t, rest⟩
    · simp only [call, single_of_error hread]
    · cases hend : Tree.atEnd (Tree.behindSemicolon rest) with
      | true => simp only [call, single_of_end hread hend]
      | false => simp only [call, single_of_more hread hend]

/-- The answers do not change when the tokens left are closed. -/
theorem answers_closed (r : Reading) (other : Int) (calls : List Call) :
    (⟨other, Tree.closed r.endLine r.rest⟩ : Reading).answers calls = r.answers calls := by
  induction calls generalizing r with
  | nil => rfl
  | cons c calls ih =>
    have hbehind := ih (r.call c).2
    rw [endLine_call] at hbehind
    rw [answers, answers, call_closed, hbehind]

end Reading

namespace Descent

open Reckoner.Tree (endLineOf closed normal)

/-- Goes on with reading from the cursor. -/
def call (tokens : List Token) (depth pos : Nat) : Call → Option (Answer × Nat)
  | .single => do
    let (answer, pos) ← single tokens depth pos
    return (.single answer, pos)
  | .program => do
    let (found, pos) ← program tokens depth pos
    return (.program found, pos)

/-- One call after the other, with the answer of each and where it leaves the cursor. -/
def calls (tokens : List Token) (depth : Nat) : Nat → List Call → Option (List (Answer × Nat))
  | _, [] => some []
  | pos, c :: cs => do
    let (answer, pos) ← call tokens depth pos c
    let trail ← calls tokens depth pos cs
    return (answer, pos) :: trail

section
variable {tokens rest : List Token} {depth pos : Nat}

theorem call_eq {r : Reading} (hline : r.endLine = endLineOf tokens)
    (hfaces : Faces tokens pos r.rest) (hdepth : limit tokens ≤ depth) (c : Call) :
    ∃ pos', call tokens depth pos c = some ((r.call c).1, pos') ∧
      Faces tokens pos' (r.call c).2.rest := by
  obtain ⟨endLine, rest⟩ := r
  subst hline
  cases c with
  | single =>
    have hdeep := Nat.le_trans (enough_le_limit hfaces) hdepth
    obtain ⟨pos', hrun, hfaces'⟩ := single_eq hdeep hfaces
    refine ⟨pos', ?_, hfaces'⟩
    rw [call, hrun]
    rfl
  | program =>
    have hlen : rest.length ≤ tokens.length := hfaces.length_le
    have hdeep : 7 * rest.length + 8 ≤ depth := by
      unfold limit at hdepth
      omega
    obtain ⟨pos', hrun, hfaces'⟩ := program_eq hdeep hfaces
    refine ⟨pos', ?_, hfaces'⟩
    rw [call, hrun]
    rfl

theorem moves_call {pos' : Nat} {c : Call} {answer : Answer}
    (h : call tokens depth pos c = some (answer, pos')) : Moves tokens pos pos' := by
  cases c with
  | single =>
    refine moves_bind moves_single ?_ h
    intro a stop hnext
    exact moves_some hnext
  | program =>
    refine moves_bind moves_itemsOnto ?_ h
    intro found stop hnext
    exact moves_some hnext

/-- A cursor that is not past the first end mark faces the same tokens in the normal form. -/
theorem Faces.normal (h : Faces tokens pos rest) (hpos : pos ≤ endOf tokens) :
    Faces (normal tokens) pos (closed (endLineOf tokens) rest) := by
  obtain ⟨used, heq, rfl⟩ := h
  have hused : ∀ tok ∈ used, tok.isEnd = false := by
    intro tok htok
    obtain ⟨i, hi, rfl⟩ := List.getElem_of_mem htok
    have hnot := List.not_of_lt_findIdx (Nat.lt_of_lt_of_le hi hpos)
    simpa [heq, List.getElem_append_left hi] using hnot
  refine ⟨used, ?_, rfl⟩
  rw [Tree.normal_eq, heq, Tree.closed_append hused]

/-- One call from a cursor that is not past the first end mark: over the tokens and over their
normal form it gives the same answer and leaves the cursor at the same place. -/
theorem call_normal {r : Reading} (hline : r.endLine = endLineOf tokens)
    (hfaces : Faces tokens pos r.rest) (hpos : pos ≤ endOf tokens) (c : Call) :
    ∃ pos', (∀ depth, limit tokens ≤ depth →
        call tokens depth pos c = some ((r.call c).1, pos')) ∧
      (∀ depth, limit (normal tokens) ≤ depth →
        call (normal tokens) depth pos c = some ((r.call c).1, pos')) ∧
      Faces tokens pos' (r.call c).2.rest ∧ pos ≤ pos' ∧ pos' ≤ endOf tokens := by
  obtain ⟨pos', hcall, hfaces'⟩ := call_eq hline hfaces (Nat.le_refl _) c
  obtain ⟨hle, hend⟩ := moves_call hcall
  refine ⟨pos', ?_, ?_, hfaces', hle, hend hpos⟩
  · intro depth hdepth
    obtain ⟨pos'', hcall', hfaces''⟩ := call_eq hline hfaces hdepth c
    rw [hcall', hfaces''.unique hfaces']
  · intro depth hdepth
    have hnormal := hfaces.normal hpos
    have hnormal' := hfaces'.normal (hend hpos)
    rw [← hline] at hnormal hnormal'
    let r' : Reading := ⟨endLineOf (normal tokens), closed r.endLine r.rest⟩
    obtain ⟨pos'', hcall', hfaces''⟩ := call_eq (r := r') rfl hnormal hdepth c
    rw [Reading.call_closed] at hcall' hfaces''
    rw [hcall', hfaces''.unique hnormal']

/-- Any number of calls, likewise; the cursor never goes back from one call to the next. -/
theorem exists_trail (cs : List Call) {r : Reading} (hline : r.endLine = endLineOf tokens)
    (hfaces : Faces tokens pos r.rest) (hpos : pos ≤ endOf tokens) :
    ∃ trail : List (Answer × Nat),
      (∀ depth, limit tokens ≤ depth → calls tokens depth pos cs = some trail) ∧
      (∀ depth, limit (normal tokens) ≤ depth → calls (normal tokens) depth pos cs = some trail) ∧
      trail.map Prod.fst = r.answers cs ∧
      (pos :: trail.map Prod.snd).Pairwise (· ≤ ·) ∧
      ∀ stop ∈ trail.map Prod.snd, stop ≤ endOf tokens := by
  induction cs generalizing pos r with
  | nil => exact ⟨[], fun _ _ => rfl, fun _ _ => rfl, rfl, by simp, by simp⟩
  | cons c cs ih =>
    obtain ⟨pos', hcall, hcall', hfaces', hle, hend⟩ := call_normal hline hfaces hpos c
    have hline' : (r.call c).2.endLine = endLineOf tokens := (r.endLine_call c).trans hline
    obtain ⟨trail, hcalls, hcalls', hanswers, hsorted, hends⟩ := ih hline' hfaces' hend
    refine ⟨((r.call c).1, pos') :: trail, ?_, ?_, ?_, ?_, ?_⟩
    · intro depth hdepth
      simp [calls, hcall depth hdepth, hcalls depth hdepth]
    · intro depth hdepth
      simp [calls, hcall' depth hdepth, hcalls' depth hdepth]
    · rw [List.map_cons, hanswers, Reading.answers]
    · rw [List.map_cons, List.pairwise_cons]
      refine ⟨?_, hsorted⟩
      intro stop hstop
      rcases List.mem_cons.1 hstop with rfl | hstop
      · exact hle
      · exact Nat.le_trans hle ((List.pairwise_cons.1 hsorted).1 stop hstop)
    · exact List.forall_mem_cons.2 ⟨hend, hends⟩

end

end Descent

/-- **A token list is read as its normal form.** Take any calls, one after the other, on one reading
of the tokens. Every call comes to an end, over the tokens and over their normal form, with the same
answers and the same places of the cursor; the answers are those of reading by frames. The cursor
never goes back and never gets past the first end mark. -/
theorem Reading.calls_normal (tokens : List Token) (calls : List Call) :
    ∃ trail : List (Answer × Nat),
      (∀ depth, Descent.limit tokens ≤ depth →
        Descent.calls tokens depth 0 calls = some trail) ∧
      (∀ depth, Descent.limit (Tree.normal tokens) ≤ depth →
        Descent.calls (Tree.normal tokens) depth 0 calls = some trail) ∧
      trail.map Prod.fst = (Reading.start tokens).answers calls ∧
      trail.map Prod.fst = (Reading.start (Tree.normal tokens)).answers calls ∧
      (0 :: trail.map Prod.snd).Pairwise (· ≤ ·) ∧
      ∀ stop ∈ trail.map Prod.snd, stop ≤ Descent.endOf tokens := by
  obtain ⟨trail, hcalls, hcalls', hanswers, hsorted, hends⟩ :=
    Descent.exists_trail calls (r := Reading.start tokens) rfl (Descent.Faces.start tokens)
      (Nat.zero_le _)
  refine ⟨trail, hcalls, hcalls', hanswers, ?_, hsorted, hends⟩
  have hstart : Reading.start (Tree.normal tokens)
      = ⟨Tree.endLineOf (Tree.normal tokens), Tree.closed (Tree.endLineOf tokens) tokens⟩ := by
    rw [← Tree.normal_eq]
    rfl
  rw [hanswers, hstart]
  exact (answers_closed (Reading.start tokens) (Tree.endLineOf (Tree.normal tokens)) calls).symm

end Reckoner
