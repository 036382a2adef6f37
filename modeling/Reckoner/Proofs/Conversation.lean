import Reckoner.Prompt
import Reckoner.Proofs.Expectations

/-!
# Reckoner.Proofs.Conversation — the lines of a conversation are independent

What a line comes to is told from the line alone: what it prints (`printed`), what it reports
(`reported`) and whether it is remembered. The replies of a conversation that nobody interrupts
pass on nothing but the patience, and that does not wear out (`reply_eq`), so the replies are those
of the lines that are read, one by one (`replyOnto_eq`). The trimmed line decides what kind of line
it is; the line as it was typed is what is run and remembered.

Main statement: `converse_eq`.
-/

namespace Reckoner.Prompt

/-! ## A line on its own -/

/-- Does the line hold blanks only? -/
def Blank (line : Bytes) : Prop := Text.trim line = []

instance (line : Bytes) : Decidable (Blank line) := inferInstanceAs (Decidable (_ = _))

/-- Is the line a command? -/
def Command (line : Bytes) : Prop := (Text.trim line).head? = some (byte ':')

instance (line : Bytes) : Decidable (Command line) := inferInstanceAs (Decidable (_ = _))

/-- What a line prints: the values of its expressions, a line each. -/
def printed (line : Bytes) : Bytes :=
  if Blank line ∨ Command line then []
  else (Session.runFully line).outcomes.flatMap fun o => o.value.text ++ [Bytes.newline]

/-- What a line reports: that there is no such command, or the fault of its run. -/
def reported (line : Bytes) : Bytes :=
  if Blank line ∨ quits line then []
  else if Command line then unknownCommand
  else (Session.runFully line).fault.elim [] fun f => f.message ++ [Bytes.newline]

/-- The trace of a line. -/
def logged (line : Bytes) : Bytes :=
  if Blank line ∨ Command line then [] else Session.traceRun line (Session.runFully line)

/-- The reply to a line, whatever stands in front of it. -/
def answer (line : Bytes) : Reply where
  out := printed line
  err := reported line
  log := logged line
  remembered := if Blank line then none else some line

theorem Command.not_blank {line : Bytes} (h : Command line) : ¬Blank line := by
  intro hblank
  rw [Command, hblank] at h
  cases h

/-- A line that quits is a command. -/
theorem command_of_quits {line : Bytes} (h : quits line = true) : Command line := by
  simp only [quits, Bool.or_eq_true, decide_eq_true_eq] at h
  obtain h | h := h
  all_goals
    rw [Command, h]
    rfl

theorem answer_of_quits {line : Bytes} (h : quits line = true) :
    answer line = { remembered := some line } := by
  have hcommand := command_of_quits h
  simp only [answer, printed, reported, logged, h, hcommand, hcommand.not_blank, or_true, if_true,
    if_false]

/-- **A reply goes by its line alone**, and leaves the patience as it was. -/
theorem reply_eq {patience : Patience} (hleft : patience.left = none) {line : Bytes}
    (h : quits line = false) : reply patience line = (answer line, patience) := by
  cases htrim : Text.trim line with
  | nil =>
    have hblank : Blank line := htrim
    simp only [reply, htrim, answer, printed, reported, logged, hblank, true_or, if_true]
  | cons first rest =>
    have hblank : ¬Blank line := by
      rw [Blank, htrim]
      exact List.cons_ne_nil _ _
    have hcommand : Command line ↔ first = byte ':' := by
      rw [Command, htrim, List.head?_cons, Option.some_inj]
    by_cases hcolon : first = byte ':'
    · simp only [reply, htrim, answer, printed, reported, logged, hblank, h, hcommand, hcolon,
        if_true, false_or, if_false, Bool.false_eq_true]
    · have hrun : Session.run patience line = (Session.runFully line, patience) :=
        Prod.ext (Session.run_unlimited hleft line) (Session.patience_run hleft line)
      simp only [reply, htrim, answer, printed, reported, logged, hblank, h, hcommand, hcolon,
        hrun, Run.printed, Bytes.lines, List.flatMap_map, false_or, if_false, Bool.false_eq_true]

/-! ## A whole conversation -/

/-- The lines that are read: those up to the first that quits, with that one. -/
def live (lines : List Bytes) : List Bytes := lines.take (lines.findIdx quits + 1)

theorem live_cons_of_quits {line : Bytes} (h : quits line = true) (rest : List Bytes) :
    live (line :: rest) = [line] := by
  simp [live, List.findIdx_cons, h]

theorem live_cons_of_not_quits {line : Bytes} (h : quits line = false) (rest : List Bytes) :
    live (line :: rest) = line :: live rest := by
  simp [live, List.findIdx_cons, h]

theorem live_append {before : List Bytes} (h : ∀ line ∈ before, quits line = false)
    (rest : List Bytes) : live (before ++ rest) = before ++ live rest := by
  induction before with
  | nil => rfl
  | cons line before ih =>
    rw [List.cons_append, live_cons_of_not_quits (h line List.mem_cons_self),
      ih fun l hl => h l (List.mem_cons_of_mem _ hl), List.cons_append]

/-- **The replies are those of the lines that are read**, in order. -/
theorem replyOnto_eq {patience : Patience} (hleft : patience.left = none) (done : List Reply)
    (lines : List Bytes) :
    replyOnto done patience lines
      = (done.reverse ++ (live lines).map answer,
          if lines.any quits then some (lines.drop (live lines).length) else none) := by
  -- the patience comes back as it was, so the hypothesis on it serves for all lines
  induction lines generalizing done with
  | nil => simp [replyOnto, live]
  | cons line rest ih =>
    cases h : quits line with
    | true =>
      simp [replyOnto, h, live_cons_of_quits h, answer_of_quits h]
    | false =>
      simp [replyOnto, h, reply_eq hleft h, ih, live_cons_of_not_quits h]

theorem filterMap_remembered (lines : List Bytes) :
    lines.filterMap (Reply.remembered ∘ answer) = lines.filter fun line => ¬Blank line := by
  induction lines with
  | nil => rfl
  | cons line rest ih =>
    by_cases h : Blank line <;> simp [answer, h, ih]

theorem live_eq_self {lines : List Bytes} (h : lines.any quits = false) : live lines = lines := by
  have hnone : ∀ line ∈ lines, quits line = false := by
    simpa only [List.any_eq_false, Bool.not_eq_true] using h
  simpa [live] using live_append hnone []

/-- What the lines come to one by one, up to the first that quits. The newline at the end stands
for the line that was asked for and did not come. -/
def Transcript.ofLines (lines : List Bytes) : Transcript where
  out := (live lines).flatMap printed ++ if lines.any quits then [] else [Bytes.newline]
  err := (live lines).flatMap reported
  log := (live lines).flatMap logged
  history := (live lines).filter fun line => ¬Blank line
  asked := (live lines).length + if lines.any quits then 0 else 1
  unread := lines.drop (live lines).length
  fault := none

theorem converse_over {patience : Patience} (hleft : patience.left = none) (lines : List Bytes) :
    converse patience lines .over = .ofLines lines := by
  rw [converse, replyOnto_eq hleft, List.reverse_nil, List.nil_append]
  cases hquits : lines.any quits with
  | true => simp [Transcript.ofLines, hquits, filterMap_remembered, List.flatMap_map, answer]
  | false =>
    simp [Transcript.ofLines, hquits, filterMap_remembered, List.flatMap_map, answer,
      live_eq_self hquits]

/-- Lines that do not quit print and report their own part in front of the rest. -/
theorem Transcript.ofLines_append {before : List Bytes} (h : ∀ line ∈ before, quits line = false)
    (after : List Bytes) :
    (ofLines (before ++ after)).out = before.flatMap printed ++ (ofLines after).out ∧
      (ofLines (before ++ after)).err = before.flatMap reported ++ (ofLines after).err := by
  have hany : before.any quits = false := by
    simpa only [List.any_eq_false, Bool.not_eq_true] using h
  constructor
  · simp only [ofLines, live_append h, List.flatMap_append, List.any_append, hany, Bool.false_or,
      List.append_assoc]
  · simp only [ofLines, live_append h, List.flatMap_append]

/-- **The lines of a conversation are independent.** A conversation that nobody interrupts and that
lasts to the end of the input or to a line that quits prints and reports what the lines up to there
come to on their own, in their order, and a newline at the end if none quits. It remembers those
lines as they were typed, apart from the blank ones, reads none behind the line that quits and never
fails (`Transcript.ofLines`).

So a line that does not quit adds its own part and nothing else: whatever it comes to, the lines in
front of it and behind it print and report the same. -/
theorem converse_eq (patience : Patience) (hleft : patience.left = none) :
    (∀ lines, converse patience lines .over = .ofLines lines) ∧
    ∀ before line after, (∀ l ∈ before, quits l = false) → quits line = false →
      (converse patience (before ++ line :: after) .over).out
        = before.flatMap printed ++ printed line ++ (converse patience after .over).out ∧
      (converse patience (before ++ line :: after) .over).err
        = before.flatMap reported ++ reported line ++ (converse patience after .over).err := by
  refine ⟨converse_over hleft, fun before line after hbefore hline => ?_⟩
  have hread : ∀ l ∈ before ++ [line], quits l = false := by
    intro l hl
    obtain hl | hl := List.mem_append.mp hl
    · exact hbefore l hl
    · rw [List.mem_singleton.mp hl, hline]
  have happend := Transcript.ofLines_append hread after
  simpa only [converse_over hleft, List.append_assoc, List.singleton_append, List.flatMap_append,
    List.flatMap_singleton] using happend

/-- A run that fails behind its first value, a blank line, a command that does not exist, and a line
behind the one that quits. -/
theorem converse_eq_mixed :
    let lines := [utf8 "1 + 1; -nil", utf8 " \t", utf8 ":help", utf8 "\"a\"; 3", utf8 " :quit ",
      utf8 "4"]
    Patience.endless.left = none ∧
    (converse .endless lines .over).out = utf8 "2\na\n3\n" ∧
    (converse .endless lines .over).err
      = utf8 "[line 1] Error: Operand must be a number, got nil.\n" ++ unknownCommand ∧
    (converse .endless lines .over).history
      = [utf8 "1 + 1; -nil", utf8 ":help", utf8 "\"a\"; 3", utf8 " :quit "] ∧
    (converse .endless lines .over).unread = [utf8 "4"] ∧
    (converse .endless (lines.take 4) .over).out
      = [utf8 "1 + 1; -nil", utf8 " \t", utf8 ":help"].flatMap printed ++ printed (utf8 "\"a\"; 3")
        ++ [Bytes.newline] := by
  have h := converse_eq .endless rfl
  refine ⟨rfl, ?_, ?_, ?_, ?_, ?_⟩
  · rw [h.1]
    decide +kernel
  · rw [h.1]
    decide +kernel
  · rw [h.1]
    decide +kernel
  · rw [h.1]
    decide +kernel
  · exact (h.2 [utf8 "1 + 1; -nil", utf8 " \t", utf8 ":help"] (utf8 "\"a\"; 3") []
      (by decide +kernel) (by decide +kernel)).1

end Reckoner.Prompt
