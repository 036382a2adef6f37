import Reckoner.Proofs.Joining
import Reckoner.Proofs.Verdicts
import Reckoner.Suite

/-!
# Reckoner.Proofs.Expectations — a case passes just if its source behaves as described

A case describes a source: the trees that are read from it, the fault it must end with, or the value
it must come to. `Met` says what that means for a run of the source. Checking makes a list of
complaints, and each part of the list is empty just if its part of the description is met
(`treeFailures_eq_nil_iff`, `runFailures_eq_nil_iff`); so a case never passes by chance.

A suite checks its cases one after the other with what is left of the caller's patience, and gives a
result for each (`getElem?_checkCases`). A description that is copied from what the source really
does is met (`Copied.met`), also when the source has faults and only some of its trees can be read.

Main statement: `check_exact`.
-/

namespace Reckoner

/-- A text mentions another just if the other is a part of it. -/
theorem Bytes.mentions_iff {needle s : Bytes} : Bytes.mentions needle s = true ↔ needle <:+: s := by
  induction s with
  | nil => rw [mentions, List.isEmpty_iff, List.infix_nil]
  | cons b rest ih =>
    rw [mentions, Bool.or_eq_true, List.isPrefixOf_iff_prefix, ih, List.infix_cons_iff]

/-! ## What a case says of its source -/

/-- The fault is as described: its first diagnostic has that kind and that line, if a line is given,
and its message has the given text in it. -/
def ExpectedFault.Describes (e : ExpectedFault) (f : Fault) : Prop :=
  ∃ d ∈ f.diagnostics.head?,
    d.kind = e.kind ∧ (e.line ≠ 0 → d.line = e.line) ∧ e.message <:+: f.message

namespace Case

/-- The trees are as described. Where no fault of reading is expected, there must be none. -/
def TreesMet (c : Case) : Prop :=
  ∀ want ∈ c.tree,
    ((Session.parse c.source).2 = none ∨
      ∃ e ∈ c.fault, e.kind.phase = .scan ∨ e.kind.phase = .parse) ∧
    Bytes.join (utf8 "; ") ((Session.parse c.source).1.map Tree.text) = want

/-- If a fault is described, the run has one like that. -/
def FaultMet (c : Case) (r : Run) : Prop := ∀ e ∈ c.fault, ∃ f ∈ r.fault, e.Describes f

/-- If no fault is described, the run has none, and its last value is as described; it is nil if the
source has no expressions. -/
def ValueMet (c : Case) (r : Run) : Prop :=
  c.fault = none → r.fault = none ∧
    ∀ want ∈ c.value, (r.outcomes.getLast?.elim (utf8 "nil") fun o => o.value.text) = want

/-- The source behaves as described in this run. -/
structure Met (c : Case) (r : Run) : Prop where
  trees : c.TreesMet
  fault : c.FaultMet r
  value : c.ValueMet r

/-! ## Complaints -/

theorem expectsStaticFault_iff {c : Case} : c.expectsStaticFault = true ↔
    ∃ e ∈ c.fault, e.kind.phase = .scan ∨ e.kind.phase = .parse := by
  unfold expectsStaticFault
  cases c.fault with
  | none => simp
  | some e => cases h : e.kind.phase <;> simp [h]

theorem treeFailures_eq_nil_iff {c : Case} : c.treeFailures = [] ↔ c.TreesMet := by
  rw [TreesMet, ← expectsStaticFault_iff]
  unfold treeFailures
  cases c.tree with
  | none => simp
  | some want =>
    rcases Session.parse c.source with ⟨trees, _ | f⟩
    · simp [treesText]
    · cases c.expectsStaticFault <;> simp [treesText]

theorem complaint_eq_nil_iff {p : Prop} [Decidable p] {complaint : Bytes} :
    (if p then [] else [complaint]) = [] ↔ p := by
  split <;> simp [*]

theorem faultFailures_eq_nil_iff {e : ExpectedFault} {fault : Option Fault} :
    faultFailures e fault = [] ↔ ∃ f ∈ fault, e.Describes f := by
  unfold faultFailures ExpectedFault.Describes
  cases fault with
  | none => simp
  | some f =>
    -- what is not checked needs no case of its own: the empty text is a part of every message
    have hmessage : List.isEmpty e.message = true ∨ Bytes.mentions e.message f.message = true ↔
        e.message <:+: f.message := by
      rw [Bytes.mentions_iff, List.isEmpty_iff]
      exact or_iff_right_of_imp fun hempty => hempty ▸ List.nil_infix
    have hline : ∀ d : Diagnostic, e.line = 0 ∨ d.line = e.line ↔ (e.line ≠ 0 → d.line = e.line) :=
      fun d => or_iff_not_imp_left
    simp only [Fault.head?_diagnostics, Option.mem_some_iff, exists_eq_left']
    cases f.first? with
    | none => simp
    | some d =>
      simp only [List.append_eq_nil_iff, complaint_eq_nil_iff, hmessage, hline, and_assoc,
        Option.mem_some_iff, exists_eq_left']

theorem text_last (r : Run) :
    r.last.text = r.outcomes.getLast?.elim (utf8 "nil") fun o => o.value.text := by
  unfold Run.last
  cases r.outcomes.getLast? <;> rfl

theorem runFailures_eq_nil_iff {c : Case} {r : Run} :
    c.runFailures r = [] ↔ c.FaultMet r ∧ c.ValueMet r := by
  unfold runFailures FaultMet ValueMet
  cases c.fault with
  | some e => simp [faultFailures_eq_nil_iff]
  | none =>
    cases r.fault with
    | some f => simp
    | none =>
      rw [← text_last]
      cases c.value <;> simp

/-- **A case passes just if its source behaves as described.** -/
theorem failures_check_eq_nil_iff (c : Case) (patience : Patience) :
    (c.check patience).1.failures = [] ↔ c.Met (Session.run patience c.source).1 := by
  show c.treeFailures ++ c.runFailures _ = [] ↔ _
  rw [List.append_eq_nil_iff, treeFailures_eq_nil_iff, runFailures_eq_nil_iff]
  exact ⟨fun ⟨htrees, hfault, hvalue⟩ => ⟨htrees, hfault, hvalue⟩,
    fun h => ⟨h.trees, h.fault, h.value⟩⟩

end Case

/-! ## Descriptions that are copied -/

/-- The expectation is copied from what is kept of a fault; line and message may be left out. -/
structure ExpectedFault.CopiedFrom (e : ExpectedFault) (f : Fault) : Prop where
  kind : e.kind = (Failure.ofFault f).kind
  line : e.line = 0 ∨ e.line = (Failure.ofFault f).line
  message : e.message = [] ∨ e.message = (Failure.ofFault f).message

/-- What the case describes is copied from what its source does when nobody interrupts it. -/
structure Case.Copied (c : Case) : Prop where
  tree : ∀ want ∈ c.tree, want = Case.treesText (Session.parse c.source).1
  fault : Option.Rel ExpectedFault.CopiedFrom c.fault (Session.runFully c.source).fault
  value : ∀ want ∈ c.value, want = (Session.runFully c.source).last.text

theorem Failure.message_ofFault (f : Fault) : (ofFault f).message = f.message := by
  unfold ofFault
  split <;> rfl

namespace ExpectedFault.CopiedFrom

variable {e : ExpectedFault} {f : Fault} {d : Diagnostic}

theorem kind_eq (h : e.CopiedFrom f) (hfirst : f.diagnostics.head? = some d) : e.kind = d.kind :=
  h.kind.trans (congrArg Verdict.kind (Fault.verdict_of_head? hfirst))

/-- A copied expectation describes the fault. -/
theorem describes (h : e.CopiedFrom f) (hfirst : f.diagnostics.head? = some d) :
    e.Describes f := by
  have hline : (Failure.ofFault f).line = d.line :=
    congrArg Verdict.line (Fault.verdict_of_head? hfirst)
  refine ⟨d, hfirst, (h.kind_eq hfirst).symm, fun hne => ?_, ?_⟩
  · rw [← hline, h.line.resolve_left hne]
  · rcases h.message with hmessage | hmessage
    · exact hmessage ▸ List.nil_infix
    · exact (hmessage.trans (Failure.message_ofFault f)) ▸ List.infix_rfl

end ExpectedFault.CopiedFrom

namespace Session

/-- The first diagnostic of a source that cannot be read is of scanning or parsing. -/
theorem exists_static_of_parse {source : Bytes} {f : Fault} (h : (parse source).2 = some f) :
    ∃ d, f.diagnostics.head? = some d ∧ (d.kind.phase = .scan ∨ d.kind.phase = .parse) := by
  unfold parse at h
  cases hscan : Token.scan source with
  | error d =>
    rw [hscan] at h
    cases h
    refine ⟨d, rfl, .inl ?_⟩
    rcases kind_of_scan hscan with hkind | hkind <;> rw [hkind] <;> rfl
  | ok tokens =>
    rw [hscan] at h
    simp only [Fault.join?] at h
    split at h
    · cases h
    · next hne =>
      -- a join of diagnostics, each of which blames a token for the grammar's sake
      cases h
      rw [Fault.diagnostics, Fault.diagnosticsOf_map]
      obtain ⟨blamed, -, hblames⟩ := Tree.exists_blamed (Tree.endLineOf tokens) tokens
      rw [← Tree.parseProgram_eq] at hblames
      obtain ⟨d, rest, hcons⟩ := List.exists_cons_of_ne_nil (by simpa using hne)
      rw [hcons] at hblames ⊢
      obtain ⟨tok, -, hd⟩ := Tree.exists_blames_of_mem hblames d List.mem_cons_self
      refine ⟨d, rfl, .inr ?_⟩
      rcases kind_of_blames hd with hkind | hkind <;> rw [hkind] <;> rfl

end Session

namespace Case

/-- **A copied description is met.** -/
theorem Copied.met {c : Case} (h : c.Copied) : c.Met (Session.runFully c.source) := by
  obtain ⟨htree, hfault, hvalue⟩ := h
  generalize hexpected : c.fault = expected? at hfault
  generalize hrun : (Session.runFully c.source).fault = fault? at hfault
  cases hfault with
  | @some e f hcopied =>
    refine ⟨fun want hwant => ⟨?_, (htree want hwant).symm⟩, ?_, ?_⟩
    · cases hparse : (Session.parse c.source).2 with
      | none => exact .inl rfl
      | some g =>
        -- the run has the same fault, whose kind was copied
        obtain ⟨d, hfirst, hphase⟩ := Session.exists_static_of_parse hparse
        rw [Session.runFully_of_fault hparse] at hrun
        cases hrun
        rw [← hcopied.kind_eq hfirst] at hphase
        exact .inr ⟨e, hexpected, hphase⟩
    · intro e' he'
      rw [hexpected] at he'
      cases he'
      obtain ⟨d, hfirst, -⟩ := Session.exists_first? hrun
      rw [← Fault.head?_diagnostics] at hfirst
      exact ⟨f, hrun, hcopied.describes hfirst⟩
    · intro hnone
      cases hexpected.symm.trans hnone
  | none =>
    refine ⟨fun want hwant => ⟨.inl ?_, (htree want hwant).symm⟩, ?_, fun _ => ⟨hrun, ?_⟩⟩
    · cases hparse : (Session.parse c.source).2 with
      | none => rfl
      | some g =>
        rw [Session.runFully_of_fault hparse] at hrun
        cases hrun
    · intro e he
      cases hexpected.symm.trans he
    · intro want hwant
      rw [← text_last, hvalue want hwant]

/-- **A copied description passes** if nobody interrupts. -/
theorem failures_check_of_copied {c : Case} {patience : Patience} (hleft : patience.left = none)
    (h : c.Copied) : (c.check patience).1.failures = [] := by
  rw [failures_check_eq_nil_iff, Session.run_unlimited hleft]
  exact h.met

end Case

/-! ## Suites -/

theorem SuiteReport.passed_add_failed (r : SuiteReport) : r.passed + r.failed = r.results.length :=
  Nat.add_sub_cancel' List.countP_le_length

namespace Session

theorem patience_evaluateOnto {patience : Patience} (h : patience.left = none)
    (done : List Outcome) (trees : List Tree) :
    (evaluateOnto done patience trees).2 = patience := by
  have hask : patience.ask = (none, patience) := by rw [Patience.ask, h]
  induction trees generalizing done with
  | nil => rfl
  | cons t rest ih =>
    simp only [evaluateOnto, hask]
    cases t.eval with
    | error e => rfl
    | ok v => exact ih _

/-- Patience without a limit is not used up. -/
theorem patience_run {patience : Patience} (h : patience.left = none) (source : Bytes) :
    (run patience source).2 = patience := by
  unfold run
  split
  · rfl
  · exact patience_evaluateOnto h [] _

end Session

namespace Suite

/-- What is left of a caller's patience when the sources of these cases have been run. -/
def patienceAfter (patience : Patience) (cases : List Case) : Patience :=
  cases.foldl (fun p c => (Session.run p c.source).2) patience

theorem patienceAfter_unlimited {patience : Patience} (h : patience.left = none)
    (cases : List Case) : patienceAfter patience cases = patience := by
  induction cases with
  | nil => rfl
  | cons c rest ih =>
    rw [patienceAfter, List.foldl_cons, Session.patience_run h]
    exact ih

theorem length_checkCases (patience : Patience) (cases : List Case) :
    (checkCases patience cases).length = cases.length := by
  induction cases generalizing patience with
  | nil => rfl
  | cons c rest ih => exact congrArg (· + 1) (ih _)

/-- **A suite has a result for each case**, in order; a case is checked with what the cases in front
of it left of the patience. -/
theorem getElem?_checkCases (patience : Patience) (cases : List Case) (i : Nat) :
    (checkCases patience cases)[i]?
      = cases[i]?.map fun c => (c.check (patienceAfter patience (cases.take i))).1 := by
  induction cases generalizing patience i with
  | nil => rfl
  | cons c rest ih =>
    cases i with
    | zero => rfl
    | succ i => exact ih (c.check patience).2 i

/-- **Checking is exact.** However long the caller lets it go on, a case has no complaints just if
its source behaves as described; if nobody interrupts and the description is copied from what the
source does, it has none. A suite has a result for each case in order, and each is passed or failed,
with the same exactness; a case is run with the patience that the cases in front of it left. -/
theorem check_exact (patience : Patience) :
    (∀ c : Case,
      ((c.check patience).1.failures = [] ↔ c.Met (Session.run patience c.source).1) ∧
      (patience.left = none → c.Copied → (c.check patience).1.failures = [])) ∧
    ∀ s : Suite,
      let report := s.check patience
      report.results.length = s.cases.length ∧
      report.passed + report.failed = s.cases.length ∧
      ∀ (i : Nat) (c : Case), s.cases[i]? = some c →
        ∃ r : CaseResult, report.results[i]? = some r ∧ r.name = c.name ∧
          (r.passed = true ↔
            c.Met (Session.run (patienceAfter patience (s.cases.take i)) c.source).1) ∧
          (patience.left = none → c.Copied → r.passed = true) := by
  refine ⟨fun c => ⟨c.failures_check_eq_nil_iff patience, fun hleft hc => ?_⟩, fun s => ?_⟩
  · exact Case.failures_check_of_copied hleft hc
  · refine ⟨length_checkCases patience s.cases, ?_, fun i c hc => ?_⟩
    · rw [SuiteReport.passed_add_failed]
      exact length_checkCases patience s.cases
    · refine ⟨(c.check (patienceAfter patience (s.cases.take i))).1, ?_, rfl, ?_,
        fun hleft hcopied => ?_⟩
      · exact (getElem?_checkCases patience s.cases i).trans (congrArg (Option.map _) hc)
      · rw [CaseResult.passed, List.isEmpty_iff, Case.failures_check_eq_nil_iff]
      · rw [CaseResult.passed, List.isEmpty_iff, patienceAfter_unlimited hleft]
        exact Case.failures_check_of_copied hleft hcopied

/-- A suite with a source whose second expression cannot be read. Its other trees are described all
the same. A caller that goes away after the first expression makes the last case fail. -/
theorem check_exact_recovered :
    let recovered : Case := ⟨utf8 "recovered", utf8 "nil;);true", none, some (utf8 "nil; true"),
      some ⟨.unexpectedExpression, 1, utf8 "[line 1] Error at ')': Expect expression."⟩⟩
    let plain : Case := ⟨utf8 "plain", utf8 "nil", some (utf8 "nil"), none, none⟩
    let s : Suite := ⟨utf8 "suite", [plain, recovered, plain]⟩
    let brief : Patience := .limited 1 .canceled
    recovered.Copied ∧ (recovered.check .endless).1.failures = [] ∧
      (s.check brief).results.map CaseResult.passed = [true, true, false] ∧
      ¬plain.Met (Session.run (patienceAfter brief [plain, recovered]) plain.source).1 := by
  intro recovered plain s brief
  have hfault : (Session.runFully recovered.source).fault =
      some (.joined [.diagnostic (.unexpectedExpression 1 (utf8 " at ')'"))]) := by
    with_unfolding_all rfl
  have hcopied : recovered.Copied := by
    refine ⟨?_, ?_, fun want hwant => by cases hwant⟩
    · rintro want ⟨⟩
      with_unfolding_all rfl
    · rw [hfault]
      exact .some ⟨rfl, .inr rfl, .inr (by with_unfolding_all rfl)⟩
  have hpassed : (s.check brief).results.map CaseResult.passed = [true, true, false] := by
    with_unfolding_all rfl
  obtain ⟨r, hr, -, hexact, -⟩ := ((check_exact brief).2 s).2.2 2 plain rfl
  refine ⟨hcopied, ((check_exact .endless).1 recovered).2 rfl hcopied, hpassed, fun hmet => ?_⟩
  have hlast := congrArg (·[2]?) hpassed
  simp only [List.getElem?_map, hr] at hlast
  cases (Option.some.inj hlast).symm.trans (hexact.2 hmet)

end Suite

end Reckoner
