import Mathlib.Data.List.Forall2
import Reckoner.Proofs.Lines
import Reckoner.Proofs.Scanning

/-!
# Reckoner.Proofs.Layout — layout has no meaning

Blanks, newlines and comments move tokens to other lines and do nothing else. Two sources with the
same words in the same order, wherever these stand, therefore run alike: what they print is the
same, and so is what they complain about, up to the lines that it is reported at.

A run sees its source through the tokens only (`run_of_scan`), and running tokens commutes with any
change of their lines (`runTokens_reline`). To compare two runs, take the lines away from both:
`unlined` puts everything on line zero, and what is left of the tokens is equal.

Main statement: `run_layout`.
-/

namespace Reckoner

/-! ## Words and complaints without their lines -/

/-- The tokens are the same word, on whatever lines. -/
def Token.SameWord (t u : Token) : Prop :=
  t.kind = u.kind ∧ t.lexeme = u.lexeme ∧ t.literal = u.literal

/-- The diagnostics say the same, of whatever lines. -/
def Diagnostic.SameComplaint (d e : Diagnostic) : Prop :=
  d.kind = e.kind ∧ d.place = e.place ∧ d.detail = e.detail

/-- The fault with all its diagnostics at line zero. -/
def Fault.unlined (f : Fault) : Fault := f.reline fun _ => 0

theorem Token.SameWord.reline_eq {t u : Token} (h : t.SameWord u) :
    t.reline (fun _ => 0) = u.reline fun _ => 0 := by
  obtain ⟨hkind, hlexeme, hliteral⟩ := h
  simp only [reline, hkind, hlexeme, hliteral]

theorem Diagnostic.SameComplaint.of_reline_eq {d e : Diagnostic}
    (h : d.reline (fun _ => 0) = e.reline fun _ => 0) : d.SameComplaint e := by
  injection h with hkind _ hplace hdetail
  exact ⟨hkind, hplace, hdetail⟩

/-- The same words are the same tokens once their lines are gone. -/
theorem Token.map_reline_eq {tokens tokens' : List Token}
    (h : List.Forall₂ SameWord tokens tokens') :
    tokens.map (reline fun _ => 0) = tokens'.map (reline fun _ => 0) := by
  induction h with
  | nil => rfl
  | cons hword _ ih => rw [List.map_cons, List.map_cons, hword.reline_eq, ih]

theorem Diagnostic.forall₂_of_map_eq {ds es : List Diagnostic}
    (h : ds.map (reline fun _ => 0) = es.map (reline fun _ => 0)) :
    List.Forall₂ SameComplaint ds es := by
  rw [← List.forall₂_eq_eq_eq, List.forall₂_map_left_iff, List.forall₂_map_right_iff] at h
  exact h.imp fun _ _ => SameComplaint.of_reline_eq

namespace Fault

mutual

/-- The diagnostics of a fault change their lines with it. -/
theorem diagnostics_reline (f : Int → Int) (fault : Fault) :
    (fault.reline f).diagnostics = fault.diagnostics.map (Diagnostic.reline f) := by
  cases fault with
  | diagnostic d => simp only [reline, diagnostics, List.map_cons, List.map_nil]
  | plain text => simp only [reline, diagnostics, List.map_nil]
  | interrupted cause => simp only [reline, diagnostics, List.map_nil]
  | wrapped context inner =>
    simp only [reline, diagnostics]
    exact diagnostics_reline f inner
  | joined members =>
    simp only [reline, diagnostics]
    exact diagnosticsOf_reline f members

theorem diagnosticsOf_reline (f : Int → Int) (faults : List Fault) :
    diagnosticsOf (relineAll f faults) = (diagnosticsOf faults).map (Diagnostic.reline f) := by
  cases faults with
  | nil => simp only [relineAll, diagnosticsOf, List.map_nil]
  | cons fault rest =>
    simp only [relineAll, diagnosticsOf, List.map_append]
    rw [diagnostics_reline f fault, diagnosticsOf_reline f rest]

end

/-- Faults that are the same without their lines hold the same complaints in the same order. -/
theorem sameComplaints_of_unlined_eq {f g : Fault} (h : f.unlined = g.unlined) :
    List.Forall₂ Diagnostic.SameComplaint f.diagnostics g.diagnostics := by
  apply Diagnostic.forall₂_of_map_eq
  rw [← diagnostics_reline, ← diagnostics_reline]
  exact congrArg diagnostics h

end Fault

/-! ## Running tokens -/

namespace Session

/-- Runs tokens: they are read to their end, and their trees are evaluated if nothing is wrong. -/
def runTokens (patience : Patience) (tokens : List Token) : Run × Patience :=
  match Fault.join? ((Tree.parseProgram tokens).diagnostics.map .diagnostic) with
  | some fault => (⟨[], some fault⟩, patience)
  | none => evaluateOnto [] patience (Tree.parseProgram tokens).trees

/-- A run sees its source through the tokens only. -/
theorem run_of_scan {source : Bytes} {tokens : List Token} (h : Token.scan source = .ok tokens)
    (patience : Patience) : run patience source = runTokens patience tokens := by
  unfold run runTokens
  simp only [parse, h]
  cases Fault.join? ((Tree.parseProgram tokens).diagnostics.map .diagnostic) with
  | none => rfl
  | some fault => rfl

/-- **Running tokens does not look at their lines**, which only come out again. -/
theorem runTokens_reline (f : Int → Int) {tokens : List Token} (h : tokens ≠ [])
    (patience : Patience) :
    runTokens patience (tokens.map (Token.reline f))
      = ((runTokens patience tokens).1.reline f, (runTokens patience tokens).2) := by
  unfold runTokens
  rw [Tree.parseProgram_reline f h]
  simp only [Tree.Program.reline]
  rw [Fault.join?_reline]
  cases Fault.join? ((Tree.parseProgram tokens).diagnostics.map .diagnostic) with
  | some fault => rfl
  | none => exact evaluateOnto_reline f [] patience _

/-- Tokens that are the same words run alike, lines apart. -/
theorem runTokens_sameWords {tokens tokens' : List Token} (h : tokens ≠ [])
    (hwords : List.Forall₂ Token.SameWord tokens tokens') (patience : Patience) :
    (runTokens patience tokens).1.reline (fun _ => 0)
        = (runTokens patience tokens').1.reline (fun _ => 0) ∧
      (runTokens patience tokens).2 = (runTokens patience tokens').2 := by
  have h' : tokens' ≠ [] := by
    rintro rfl
    cases hwords
    exact h rfl
  have hruns := runTokens_reline (fun _ => 0) h patience
  rw [Token.map_reline_eq hwords, runTokens_reline (fun _ => 0) h' patience] at hruns
  exact ⟨(congrArg Prod.fst hruns).symm, (congrArg Prod.snd hruns).symm⟩

/-- **Layout has no meaning.** Two sources that are scanned to the same words, however these are
spread over lines, have the same outcomes for the same caller, and fail both or neither. Their
faults are the same up to lines: they hold the same complaints in the same order. The caller's
patience is used up alike. -/
theorem run_layout {source source' : Bytes} {tokens tokens' : List Token}
    (h : Token.scan source = .ok tokens) (h' : Token.scan source' = .ok tokens')
    (hwords : List.Forall₂ Token.SameWord tokens tokens') (patience : Patience) :
    let r := (run patience source).1
    let r' := (run patience source').1
    r.outcomes = r'.outcomes ∧ (r.fault = none ↔ r'.fault = none) ∧
    (∀ fault fault', r.fault = some fault → r'.fault = some fault' →
      fault.unlined = fault'.unlined ∧
      List.Forall₂ Diagnostic.SameComplaint fault.diagnostics fault'.diagnostics) ∧
    (run patience source).2 = (run patience source').2 := by
  intro r r'
  have hne : tokens ≠ [] := by
    obtain ⟨_, -, rfl⟩ := Token.scan_eq_ok_iff.1 h
    simp
  obtain ⟨hrun, hpatience⟩ := runTokens_sameWords hne hwords patience
  rw [← run_of_scan h, ← run_of_scan h'] at hrun hpatience
  have houtcomes : r.outcomes = r'.outcomes := (congrArg Run.outcomes hrun :)
  have hfaults : r.fault.map Fault.unlined = r'.fault.map Fault.unlined :=
    (congrArg Run.fault hrun :)
  refine ⟨houtcomes, ?_, ?_, hpatience⟩
  · rw [← Option.map_eq_none_iff (f := Fault.unlined), hfaults, Option.map_eq_none_iff]
  · intro fault fault' hfault hfault'
    rw [hfault, hfault', Option.map_some, Option.map_some, Option.some.injEq] at hfaults
    exact ⟨hfaults, Fault.sameComplaints_of_unlined_eq hfaults⟩

/-- A fault of evaluation on the first line and, with a comment and more newlines, on the third. -/
theorem run_layout_comment :
    let source := utf8 "nil;-nil"
    let source' := utf8 "nil // c\n;\n- nil"
    let words (line line' : Int) : List Token :=
      [⟨.nilWord, utf8 "nil", .nil, 1⟩, ⟨.semicolon, utf8 ";", .nil, line⟩,
        ⟨.minus, utf8 "-", .nil, line'⟩, ⟨.nilWord, utf8 "nil", .nil, line'⟩, .endMark line']
    let r := (run (.limited 2 .canceled) source).1
    let r' := (run (.limited 2 .canceled) source').1
    Token.scan source = .ok (words 1 1) ∧ Token.scan source' = .ok (words 2 3) ∧
      List.Forall₂ Token.SameWord (words 1 1) (words 2 3) ∧
      r.outcomes = r'.outcomes ∧ (r.fault = none ↔ r'.fault = none) ∧
      ∀ fault fault', r.fault = some fault → r'.fault = some fault' →
        fault.unlined = fault'.unlined ∧
        List.Forall₂ Diagnostic.SameComplaint fault.diagnostics fault'.diagnostics := by
  intro source source' words r r'
  have hscan : Token.scan source = .ok (words 1 1) := by with_unfolding_all rfl
  have hscan' : Token.scan source' = .ok (words 2 3) := by with_unfolding_all rfl
  have hsame : ∀ {kind lexeme literal line line'},
      Token.SameWord ⟨kind, lexeme, literal, line⟩ ⟨kind, lexeme, literal, line'⟩ :=
    ⟨rfl, rfl, rfl⟩
  have hwords : List.Forall₂ Token.SameWord (words 1 1) (words 2 3) :=
    .cons hsame (.cons hsame (.cons hsame (.cons hsame (.cons hsame .nil))))
  obtain ⟨houtcomes, hnone, hfaults, -⟩ := run_layout hscan hscan' hwords (.limited 2 .canceled)
  exact ⟨hscan, hscan', hwords, houtcomes, hnone, hfaults⟩

end Session

end Reckoner
