import Reckoner.Proofs.Fronts

/-!
# Reckoner.Proofs.Verdicts — the first diagnostic decides

A fault is a tree, and there are many who report it: the history, HTTP answers, statuses of calls
and the codes that commands end with. Each of them goes by the first diagnostic of the tree, depth
first and from left to right, and by nothing else once there is one (`verdict_of_head?`). Without a
diagnostic only the interruption as such is told from other faults (`verdict_of_nil`). So it does
not matter how a fault is wrapped, or what is joined in front of it that has no diagnostic
(`Dressed.diagnostics_eq`).

Asked for a kind, a fault answers for its first diagnostic only. This is the answer for all its
diagnostics just if they are of one kind, as far as their kinds are known (`isKind_exact`); a
program with two faults of the grammar may have two (`isKind_misses_second`).

Main statement: `reports_by_first`.
-/

namespace Reckoner

namespace Fault

/-! ## The first diagnostic -/

mutual

/-- The search for a diagnostic finds the first of all of them. -/
theorem head?_diagnostics (f : Fault) : f.diagnostics.head? = f.first? := by
  cases f with
  | diagnostic d => simp only [diagnostics, first?, List.head?_cons]
  | plain text => simp only [diagnostics, first?, List.head?_nil]
  | interrupted cause => simp only [diagnostics, first?, List.head?_nil]
  | wrapped context inner =>
    simp only [diagnostics, first?]
    exact head?_diagnostics inner
  | joined members =>
    simp only [diagnostics, first?]
    exact head?_diagnosticsOf members

theorem head?_diagnosticsOf (faults : List Fault) :
    (diagnosticsOf faults).head? = firstOf? faults := by
  cases faults with
  | nil => simp only [diagnosticsOf, firstOf?, List.head?_nil]
  | cons f rest =>
    simp only [diagnosticsOf, firstOf?, List.head?_append]
    rw [head?_diagnostics f, head?_diagnosticsOf rest]
    cases f.first? <;> rfl

end

theorem diagnosticsOf_append (front back : List Fault) :
    diagnosticsOf (front ++ back) = diagnosticsOf front ++ diagnosticsOf back := by
  induction front with
  | nil => simp only [List.nil_append, diagnosticsOf]
  | cons f rest ih => simp only [List.cons_append, diagnosticsOf, ih, List.append_assoc]

theorem diagnosticsOf_eq_nil {faults : List Fault} (h : ∀ f ∈ faults, f.diagnostics = []) :
    diagnosticsOf faults = [] := by
  induction faults with
  | nil => simp only [diagnosticsOf]
  | cons f rest ih =>
    obtain ⟨hf, hrest⟩ := List.forall_mem_cons.1 h
    simp only [diagnosticsOf, hf, ih hrest, List.append_nil]

/-! ## Asking for a kind -/

/-- Does some diagnostic of the fault have this kind? -/
def Carries (f : Fault) (k : DiagnosticKind) : Prop := ∃ d ∈ f.diagnostics, d.kind = k

/-- A fault counts as one of a known kind if its first diagnostic has the kind. -/
theorem isKind_iff {f : Fault} {k : DiagnosticKind} (hk : k.known = true) :
    f.isKind k = true ↔ ∃ d ∈ f.diagnostics.head?, d.kind = k := by
  rw [isKind, decide_eq_true_iff, kind, ← head?_diagnostics]
  cases f.diagnostics.head? with
  | none =>
    have hnameless : DiagnosticKind.other [] ≠ k := by
      rintro rfl
      cases hk
    simpa using hnameless
  | some d => simp

/-- **A fault knows its first kind only.** For a known kind, a fault counts as one of that kind just
if its first diagnostic has the kind; then the fault carries it. For all known kinds this is the
same as carrying the kind just if no diagnostic has a known kind other than the first one's. -/
theorem isKind_exact (f : Fault) :
    (∀ k, k.known = true →
      (f.isKind k = true ↔ ∃ d ∈ f.diagnostics.head?, d.kind = k) ∧
      (f.isKind k = true → f.Carries k)) ∧
    ((∀ k, k.known = true → (f.isKind k = true ↔ f.Carries k)) ↔
      ∀ first ∈ f.diagnostics.head?, ∀ d ∈ f.diagnostics,
        d.kind.known = true → d.kind = first.kind) := by
  have hsound : ∀ k, k.known = true → f.isKind k = true → f.Carries k := by
    intro k hk hkind
    obtain ⟨d, hd, rfl⟩ := (isKind_iff hk).1 hkind
    exact ⟨d, List.mem_of_head? hd, rfl⟩
  refine ⟨fun k hk => ⟨isKind_iff hk, hsound k hk⟩, fun hexact first hfirst d hd hknown => ?_,
    fun hone k hk => ⟨hsound k hk, ?_⟩⟩
  · obtain ⟨first', hfirst', hkind⟩ := (isKind_iff hknown).1 ((hexact d.kind hknown).2 ⟨d, hd, rfl⟩)
    rw [← hkind, Option.mem_unique hfirst' hfirst]
  · rintro ⟨d, hd, rfl⟩
    obtain ⟨first, rest, hcons⟩ := List.exists_cons_of_ne_nil (List.ne_nil_of_mem hd)
    have hfirst : first ∈ f.diagnostics.head? := by
      rw [hcons]
      rfl
    exact (isKind_iff hk).2 ⟨first, hfirst, (hone first hfirst d hd hk).symm⟩

/-- A source with two faults of the grammar: asked for the kind of the second, the joined fault
denies it. -/
theorem isKind_misses_second :
    let first := Diagnostic.expectedToken 1 (utf8 " at ';'") (utf8 "Expect ')' after expression.")
    let second := Diagnostic.unexpectedExpression 1 (utf8 " at ')'")
    let f := joined [diagnostic first, diagnostic second]
    (Session.parse (utf8 "(nil;)")).2 = some f ∧
      f.Carries .unexpectedExpression ∧ f.isKind .unexpectedExpression = false := by
  intro first second f
  have hparse : (Session.parse (utf8 "(nil;)")).2 = some f := by with_unfolding_all rfl
  have hcarries : f.Carries .unexpectedExpression :=
    ⟨second, List.mem_cons_of_mem first List.mem_cons_self, rfl⟩
  exact ⟨hparse, hcarries, rfl⟩

end Fault

/-! ## What is made of a fault -/

/-- What is made of a fault by all who report it, texts apart. -/
structure Verdict where
  /-- The kind that the history keeps. -/
  kind : DiagnosticKind
  /-- The line that the history keeps. -/
  line : Int
  /-- The status of an HTTP answer. -/
  statusCode : Nat
  /-- The name of that status. -/
  statusName : Bytes
  /-- The code of a failed call. -/
  rpcCode : Rpc.StatusCode
  /-- The details of a failed call. -/
  rpcInfo : Option Rpc.ErrorInfo
  /-- The code that a command ends with. -/
  exitCode : Int

namespace Fault

/-- What is made of this fault. -/
def verdict (f : Fault) : Verdict where
  kind := (Failure.ofFault f).kind
  line := (Failure.ofFault f).line
  statusCode := Api.statusCode f
  statusName := Api.statusName f
  rpcCode := (Rpc.Status.ofFault f).code
  rpcInfo := (Rpc.Status.ofFault f).info
  exitCode := Command.exitCode f

/-- **One diagnostic decides everything.** -/
theorem verdict_of_head? {f : Fault} {d : Diagnostic} (h : f.diagnostics.head? = some d) :
    f.verdict = ⟨d.kind, d.line, 422, utf8 "INVALID_ARGUMENT", .invalidArgument,
      some ⟨d.kind, d.line, d.kind.phase⟩, if d.isStatic then 65 else 70⟩ := by
  rw [head?_diagnostics] at h
  simp only [verdict, Failure.ofFault, Api.statusCode, Api.statusName, Command.exitCode,
    Rpc.Status.ofFault_eq h, h, Option.isSome_some, if_true]
  rfl

/-- The code of a call that fails without a diagnostic. -/
def undiagnosedCode : Fault → Rpc.StatusCode
  | interrupted .canceled => .canceled
  | interrupted .deadlineExceeded => .deadlineExceeded
  | _ => .internal

theorem undiagnosedCode_cases (f : Fault) :
    f.undiagnosedCode ≠ .invalidArgument ∧
    (f.undiagnosedCode = .canceled ↔ f = .interrupted .canceled) ∧
    (f.undiagnosedCode = .deadlineExceeded ↔ f = .interrupted .deadlineExceeded) ∧
    (f.undiagnosedCode = .internal ↔ ∀ cause, f ≠ .interrupted cause) := by
  cases f with
  | interrupted cause => cases cause <;> simp [undiagnosedCode]
  | _ => simp [undiagnosedCode]

theorem verdict_of_nil {f : Fault} (h : f.diagnostics = []) :
    f.verdict = ⟨.other [], 0, 500, utf8 "INTERNAL", f.undiagnosedCode, none, 70⟩ := by
  have hfirst : f.first? = none := by rw [← head?_diagnostics, h, List.head?_nil]
  have hstatus : (Rpc.Status.ofFault f).code = f.undiagnosedCode ∧
      (Rpc.Status.ofFault f).info = none := by
    cases f with
    | interrupted cause => cases cause <;> exact ⟨rfl, rfl⟩
    | _ => simp only [Rpc.Status.ofFault, hfirst, undiagnosedCode, and_self]
  simp only [verdict, Failure.ofFault, Api.statusCode, Api.statusName, Command.exitCode,
    hstatus.1, hstatus.2, hfirst]
  rfl

/-! ## Wrapping and joining -/

/-- `Dressed f g`: the fault `g` is `f` seen from further away. It was wrapped, or faults without a
diagnostic were joined in front of it or of its members, anywhere inside and any number of times. -/
inductive Dressed : Fault → Fault → Prop
  | refl (f : Fault) : Dressed f f
  | trans {f g h : Fault} : Dressed f g → Dressed g h → Dressed f h
  | wrap (context : Bytes) (f : Fault) : Dressed f (wrapped context f)
  | join (f : Fault) : Dressed f (joined [f])
  | prepend {front : List Fault} (hfront : ∀ f ∈ front, f.diagnostics = []) (members : List Fault) :
      Dressed (joined members) (joined (front ++ members))
  | inside {context : Bytes} {f g : Fault} :
      Dressed f g → Dressed (wrapped context f) (wrapped context g)
  | among {front back : List Fault} {f g : Fault} :
      Dressed f g → Dressed (joined (front ++ f :: back)) (joined (front ++ g :: back))

theorem Dressed.diagnostics_eq {f g : Fault} (h : Dressed f g) : g.diagnostics = f.diagnostics := by
  induction h with
  | refl f => rfl
  | trans _ _ ihf ihg => rw [ihg, ihf]
  | wrap context f => simp only [diagnostics]
  | join f => simp only [diagnostics, diagnosticsOf, List.append_nil]
  | prepend hfront members =>
    simp only [diagnostics, diagnosticsOf_append, diagnosticsOf_eq_nil hfront, List.nil_append]
  | inside _ ih => simp only [diagnostics, ih]
  | among _ ih => simp only [diagnostics, diagnosticsOf_append, diagnosticsOf, ih]

/-! ## All reports -/

/-- Known kinds have names. -/
theorem name_ne_nil_of_known {k : DiagnosticKind} (h : k.known = true) : k.name ≠ [] := by
  cases k with
  | other name => cases h
  | _ => decide

/-- What the history keeps of a fault. -/
theorem kept_by_first {f : Fault} (hknown : ∀ d ∈ f.diagnostics, d.kind.known = true) :
    (Failure.ofFault f).kind = (f.diagnostics.head?.elim (.other []) fun d => d.kind) ∧
    ((Failure.ofFault f).line = f.diagnostics.head?.elim 0 fun d => d.line) ∧
    ((Failure.ofFault f).kind.name = [] ↔ f.diagnostics.head? = none) := by
  cases hfirst : f.diagnostics.head? with
  | some d =>
    have hverdict := verdict_of_head? hfirst
    have hkind : (Failure.ofFault f).kind = d.kind := congrArg Verdict.kind hverdict
    have hnamed := name_ne_nil_of_known (hknown d (List.mem_of_head? hfirst))
    refine ⟨hkind, congrArg Verdict.line hverdict, ?_⟩
    rw [hkind]
    exact iff_of_false hnamed (Option.some_ne_none d)
  | none =>
    have hverdict := verdict_of_nil (List.head?_eq_none_iff.1 hfirst)
    have hkind : (Failure.ofFault f).kind = .other [] := congrArg Verdict.kind hverdict
    refine ⟨hkind, congrArg Verdict.line hverdict, ?_⟩
    rw [hkind]
    exact iff_of_true rfl rfl

/-- How HTTP answers. -/
theorem http_by_first (f : Fault) :
    (Api.statusCode f = 422 ↔ f.diagnostics.head?.isSome = true) ∧
    (Api.statusName f = utf8 "INVALID_ARGUMENT" ↔ f.diagnostics.head?.isSome = true) := by
  cases hfirst : f.diagnostics.head? with
  | some d =>
    have hverdict := verdict_of_head? hfirst
    exact ⟨iff_of_true (congrArg Verdict.statusCode hverdict) rfl,
      iff_of_true (congrArg Verdict.statusName hverdict) rfl⟩
  | none =>
    have hverdict := verdict_of_nil (List.head?_eq_none_iff.1 hfirst)
    have hstatus : Api.statusCode f = 500 := congrArg Verdict.statusCode hverdict
    have hname : Api.statusName f = utf8 "INTERNAL" := congrArg Verdict.statusName hverdict
    rw [hstatus, hname]
    exact ⟨iff_of_false (by decide) Bool.false_ne_true,
      iff_of_false (by decide) Bool.false_ne_true⟩

/-- How calls fail. -/
theorem call_by_first (f : Fault) :
    ((Rpc.Status.ofFault f).code = .invalidArgument ↔ f.diagnostics.head?.isSome = true) ∧
    (Rpc.Status.ofFault f).info
      = (f.diagnostics.head?.map fun d => ⟨d.kind, d.line, d.kind.phase⟩) ∧
    ((Rpc.Status.ofFault f).code = .canceled ↔ f = .interrupted .canceled) ∧
    ((Rpc.Status.ofFault f).code = .deadlineExceeded ↔ f = .interrupted .deadlineExceeded) ∧
    ((Rpc.Status.ofFault f).code = .internal ↔
      f.diagnostics.head? = none ∧ ∀ cause, f ≠ .interrupted cause) := by
  cases hfirst : f.diagnostics.head? with
  | some d =>
    have hverdict := verdict_of_head? hfirst
    have hcode : (Rpc.Status.ofFault f).code = .invalidArgument :=
      congrArg Verdict.rpcCode hverdict
    have hinterrupted : ∀ cause, f ≠ .interrupted cause := by
      rintro cause rfl
      cases hfirst
    refine ⟨iff_of_true hcode rfl, congrArg Verdict.rpcInfo hverdict, ?_⟩
    simp [hcode, hinterrupted]
  | none =>
    have hverdict := verdict_of_nil (List.head?_eq_none_iff.1 hfirst)
    have hcode : (Rpc.Status.ofFault f).code = f.undiagnosedCode :=
      congrArg Verdict.rpcCode hverdict
    obtain ⟨hargument, hcanceled, hdeadline, hinternal⟩ := undiagnosedCode_cases f
    rw [hcode, hcanceled, hdeadline, hinternal]
    exact ⟨iff_of_false hargument Bool.false_ne_true, congrArg Verdict.rpcInfo hverdict,
      Iff.rfl, Iff.rfl, (and_iff_right rfl).symm⟩

/-- The code that a command ends with. -/
theorem exitCode_by_first (f : Fault) : Command.exitCode f = 65 ↔
    ∃ d ∈ f.diagnostics.head?, d.kind.phase = .scan ∨ d.kind.phase = .parse := by
  cases hfirst : f.diagnostics.head? with
  | some d => simpa using (Command.exitCode_of_first? (head?_diagnostics f ▸ hfirst)).2
  | none =>
    have hexit : Command.exitCode f = 70 :=
      congrArg Verdict.exitCode (verdict_of_nil (List.head?_eq_none_iff.1 hfirst))
    simp [hexit]

/-- A fault with a diagnostic is reported the same from further away. -/
theorem Dressed.verdict_eq {f g : Fault} (h : Dressed f g)
    (hsome : f.diagnostics.head?.isSome = true) : g.verdict = f.verdict := by
  obtain ⟨d, hfirst⟩ := Option.isSome_iff_exists.1 hsome
  rw [verdict_of_head? hfirst, verdict_of_head? (h.diagnostics_eq ▸ hfirst)]

/-- **The first diagnostic decides every report.** Let the diagnostics of a fault have known kinds.
The history keeps the kind and line of the first one, and no kind and line zero if there is none.
HTTP answers with status 422 and its name just if there is one. A call fails for its argument's sake
just if there is one, and tells its kind, line and phase; else it fails as interrupted for the
interruptions as such and with an internal error for all other faults. A command ends with code 65
just if the first diagnostic is of scanning or parsing. If there is a diagnostic, nothing of this
changes when the fault is wrapped or when faults without diagnostics are joined in front. -/
theorem reports_by_first (f : Fault) (hknown : ∀ d ∈ f.diagnostics, d.kind.known = true) :
    let first? := f.diagnostics.head?
    let failure := Failure.ofFault f
    let status := Rpc.Status.ofFault f
    (failure.kind = (first?.elim (.other []) fun d => d.kind) ∧
      (failure.line = first?.elim 0 fun d => d.line) ∧
      (failure.kind.name = [] ↔ first? = none)) ∧
    ((Api.statusCode f = 422 ↔ first?.isSome = true) ∧
      (Api.statusName f = utf8 "INVALID_ARGUMENT" ↔ first?.isSome = true)) ∧
    ((status.code = .invalidArgument ↔ first?.isSome = true) ∧
      status.info = (first?.map fun d => ⟨d.kind, d.line, d.kind.phase⟩) ∧
      (status.code = .canceled ↔ f = .interrupted .canceled) ∧
      (status.code = .deadlineExceeded ↔ f = .interrupted .deadlineExceeded) ∧
      (status.code = .internal ↔ first? = none ∧ ∀ cause, f ≠ .interrupted cause)) ∧
    (Command.exitCode f = 65 ↔ ∃ d ∈ first?, d.kind.phase = .scan ∨ d.kind.phase = .parse) ∧
    (first?.isSome = true → ∀ g, Dressed f g → g.verdict = f.verdict) := by
  intro first? failure status
  exact ⟨kept_by_first hknown, http_by_first f, call_by_first f, exitCode_by_first f,
    fun hsome g hdressed => hdressed.verdict_eq hsome⟩

/-- An error of types behind a plain message, with another diagnostic later on; then wrapped, with
an interruption joined in front. -/
theorem reports_by_first_nested :
    let first := Diagnostic.typeError 3 (utf8 "Operand must be a number.")
    let later := Diagnostic.unterminatedString 7
    let members := [plain (utf8 "closed"),
      wrapped (utf8 "run") (joined [plain (utf8 "late"), diagnostic first]), diagnostic later]
    let f := joined members
    let g := wrapped (utf8 "serve") (joined ([interrupted .canceled] ++ members))
    f.diagnostics = [first, later] ∧ (∀ d ∈ f.diagnostics, d.kind.known = true) ∧
      (Failure.ofFault f).kind = .typeError ∧ (Failure.ofFault f).line = 3 ∧
      Api.statusCode f = 422 ∧ (Rpc.Status.ofFault f).code = .invalidArgument ∧
      Command.exitCode f ≠ 65 ∧ Dressed f g ∧ g.verdict = f.verdict := by
  intro first later members f g
  have hdiagnostics : f.diagnostics = [first, later] := rfl
  have hknown : ∀ d ∈ f.diagnostics, d.kind.known = true := by
    rw [hdiagnostics]
    simp [first, later, Diagnostic.typeError, Diagnostic.unterminatedString, DiagnosticKind.known]
  have hdressed : Dressed f g := .trans (.prepend (by simp [diagnostics]) members) (.wrap _ _)
  obtain ⟨⟨hkind, hline, -⟩, ⟨hstatus, -⟩, ⟨hcode, -⟩, hexit, hsame⟩ := reports_by_first f hknown
  refine ⟨hdiagnostics, hknown, hkind, hline, hstatus.2 rfl, hcode.2 rfl, ?_, hdressed,
    hsame rfl g hdressed⟩
  rw [Ne, hexit]
  rintro ⟨_, ⟨⟩, hphase | hphase⟩
  · cases hphase
  · cases hphase

end Fault

end Reckoner
