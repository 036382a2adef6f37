import Reckoner.Command.Run
import Reckoner.Rpc
import Reckoner.Proofs.Bodies
import Reckoner.Proofs.Checked

/-!
# Reckoner.Proofs.Fronts — all front ends say the same

A source can be posted over HTTP, sent in a remote call or run as a script. Each front end has its
own classification of faults (`Api.statusCode` and `Api.failureJson`, `Rpc.Status.ofFault`,
`Command.exitCode`) and its own form of values (`Value.json`, `Rpc.Field.ofValue`, `Value.text`).
They agree all the same (`Agree`): a fault of a run that nobody interrupts has a first diagnostic of
a known kind (`Session.exists_first?`), which all three go by, and the outcomes of a valid source
can be carried by a message (`Rpc.valid_ofOutcome`). How the bodies of requests are decoded does not
matter, as long as JSON is read as JSON (`Api.ReadsJson`).

That a very deep source may exhaust the call stack is outside the model.

Main statement: `answers_agree`.
-/

namespace Reckoner

open Utf8 (valid)

/-- A member of an object. -/
def Json.member? (key : String) : Json → Option Json
  | .object members => members.lookup (utf8 key)
  | _ => none

/-! ## Results in messages -/

namespace Rpc

/-- The JSON form of a value in a message. -/
def Field.json : Field → Json
  | null => .null
  | bool b => .bool b
  | number x => .ofFloat x
  | string s => .string s

/-- The printed form of a value in a message. -/
def Field.text : Field → Bytes
  | null => utf8 "nil"
  | bool b => if b then utf8 "true" else utf8 "false"
  | number x => Number.text x
  | string s => s

/-- The JSON form of an outcome in a message. -/
def ResultMessage.json (r : ResultMessage) : Json :=
  .object [(utf8 "expression", .string r.expression), (utf8 "type", .string r.type.name),
    (utf8 "value", r.value.json)]

theorem Field.json_ofValue (v : Value) : (Field.ofValue v).json = v.json := by
  cases v with
  | number x =>
    simp only [ofValue, Value.json]
    split <;> rfl
  | _ => rfl

theorem Field.text_ofValue (v : Value) : (Field.ofValue v).text = v.text := by
  cases v with
  | number x =>
    simp only [ofValue, Value.text]
    split <;> rfl
  | _ => rfl

theorem ResultMessage.json_ofOutcome (o : Outcome) :
    (ResultMessage.ofOutcome o).json = Api.outcomeJson o := by
  simp only [json, ofOutcome, Field.json_ofValue, Api.outcomeJson]

/-- The outcomes of a run as they are sent in a message. -/
def resultsOf (run : Run) : List ResultMessage := run.outcomes.map .ofOutcome

theorem map_json_resultsOf (run : Run) :
    (resultsOf run).map ResultMessage.json = run.outcomes.map Api.outcomeJson := by
  rw [resultsOf, List.map_map]
  exact List.map_congr_left fun o _ => ResultMessage.json_ofOutcome o

theorem lines_resultsOf (run : Run) :
    Bytes.lines ((resultsOf run).map fun r => r.value.text) = run.printed := by
  rw [resultsOf, List.map_map, Run.printed]
  congr 1
  exact List.map_congr_left fun o _ => Field.text_ofValue o.value

/-- A valid outcome can be carried. -/
theorem valid_ofOutcome {o : Outcome} (hexpression : valid o.expression = true)
    (hvalue : valid o.value.text = true) : (ResultMessage.ofOutcome o).valid = true := by
  have hfield : (Field.ofValue o.value).valid = true := by
    rw [← Field.text_ofValue] at hvalue
    cases hfield : Field.ofValue o.value with
    | string s =>
      rw [hfield] at hvalue
      exact hvalue
    | _ => rfl
  simp only [ResultMessage.valid, ResultMessage.ofOutcome, hexpression, hfield, Bool.and_self]

/-- A fault with a diagnostic is the caller's. -/
theorem Status.ofFault_eq {f : Fault} {d : Diagnostic} (h : f.first? = some d) :
    Status.ofFault f = ⟨.invalidArgument, f.message, some ⟨d.kind, d.line, d.kind.phase⟩⟩ := by
  cases f with
  | interrupted cause => cases h
  | _ => simp only [ofFault, h]

end Rpc

/-! ## Runs that nobody interrupts -/

namespace Session

theorem evaluateOnto_unlimited {patience : Patience} (h : patience.left = none)
    (done : List Outcome) (trees : List Tree) :
    (evaluateOnto done patience trees).1 = (evaluateOnto done .endless trees).1 := by
  have hask : ∀ p : Patience, p.left = none → p.ask = (none, p) := by
    intro p hp
    rw [Patience.ask, hp]
  induction trees generalizing done with
  | nil => rfl
  | cons t rest ih =>
    simp only [evaluateOnto, hask patience h, hask .endless rfl]
    cases t.eval with
    | error e => rfl
    | ok v => exact ih _

/-- Without a limit it does not matter what an interruption would say. -/
theorem run_unlimited {patience : Patience} (h : patience.left = none) (source : Bytes) :
    (run patience source).1 = runFully source := by
  unfold runFully run
  split
  · rfl
  · exact evaluateOnto_unlimited h [] _

/-- **A fault of a run has a first diagnostic**, of a known kind, unless it is the interruption. -/
theorem exists_first?_or_interrupted {patience : Patience} {source : Bytes} {f : Fault}
    (h : (run patience source).1.fault = some f) :
    (∃ d, f.first? = some d ∧ d.kind.known = true) ∨
      patience.left ≠ none ∧ f = .interrupted patience.cause := by
  have hreported := run_reported patience source
  rw [h] at hreported
  cases hreported with
  | @scanning d hkind =>
    refine .inl ⟨d, rfl, ?_⟩
    rcases hkind with hkind | hkind <;> rw [hkind] <;> rfl
  | @grammar ds hne hkinds =>
    obtain ⟨d, ds, rfl⟩ := List.exists_cons_of_ne_nil hne
    refine .inl ⟨d, rfl, ?_⟩
    rcases hkinds d List.mem_cons_self with hkind | hkind <;> rw [hkind] <;> rfl
  | @types d hkind =>
    refine .inl ⟨d, rfl, ?_⟩
    rw [hkind]
    rfl
  | interruption hleft => exact .inr ⟨hleft, rfl⟩

/-- So a fault of a run that nobody interrupts has one. -/
theorem exists_first? {source : Bytes} {f : Fault} (h : (runFully source).fault = some f) :
    ∃ d, f.first? = some d ∧ d.kind.known = true := by
  obtain hfirst | ⟨hleft, -⟩ := exists_first?_or_interrupted h
  · exact hfirst
  · exact absurd rfl hleft

end Session

/-! ## Each front end -/

namespace Api

open Http

/-- The request posts the source to be evaluated. -/
structure Carries (decode : Decoder) (r : Request) (source : Bytes) : Prop where
  method : r.method = utf8 "POST"
  path : comparable (pathOf r.target) = utf8 "/v1/evaluate"
  size : r.body.length ≤ maxBodySize
  source : decode r = .ok source

variable {decode : Decoder}

/-- There is a request for every source that is short enough. -/
theorem exists_carries (hjson : ReadsJson decode) {source : Bytes} (hvalid : valid source = true)
    (hsize : source.length ≤ maxSourceSize) : ∃ r, Carries decode r source := by
  have hspells : List.Forall₂ Json.Spells (Utf8.chars source)
      ((Utf8.chars source).map Json.escaped) := by
    rw [List.forall₂_map_right_iff]
    exact List.forall₂_same.2 fun c _ => Json.spells_escaped c
  have htype : isJsonType (utf8 "application/json") = true := by decide
  have hpath : comparable (pathOf (utf8 "/v1/evaluate")) = utf8 "/v1/evaluate" := by decide
  have hsource := jsonSource?_bodyOf_spells hspells
  have hbody := length_bodyOf_spells_le hspells
  rw [Utf8.encodeAll_chars hvalid] at hsource hbody
  let r : Request := ⟨utf8 "POST", utf8 "/v1/evaluate", utf8 "application/json", [],
    bodyOf ((Utf8.chars source).map Json.escaped).flatten⟩
  have hr : isJson r = true := by rw [isJson, htype]; rfl
  exact ⟨r, rfl, hpath, hbody hsize, (hjson r hr source).2 hsource⟩

/-- A source that is short enough is taken. -/
theorem readSource_of_fits {r : Request} {source : Bytes}
    (h : decode r = .ok source) (hsize : source.length ≤ maxSourceSize) :
    readSource decode r = .ok source := by
  simp only [readSource, h, if_neg (Nat.not_lt.2 hsize)]

theorem find?_evaluate (decode : Decoder) {r : Request} (hmethod : r.method = utf8 "POST")
    (hpath : comparable (pathOf r.target) = utf8 "/v1/evaluate") (t : History.Timing)
    (patience : Patience) (more : List (Route History)) :
    find? r.method (pathOf r.target) (routes decode t patience ++ more)
      = some (⟨"POST", .exactly "/v1/evaluate",
          fun _ r h => evaluate decode patience t r h⟩, []) := by
  simp only [routes, List.cons_append, find?, Pattern.match?, hpath, if_true, Route.answers,
    hmethod, decide_true, Bool.true_or]

/-- A posted source is evaluated and recorded, whatever other routes there are. -/
theorem Carries.serve_within {r : Request} {source : Bytes} (hr : Carries decode r source)
    (hsize : source.length ≤ maxSourceSize) (t : History.Timing) (patience : Patience)
    (more : List (Route History)) (h : History) :
    let run := (Session.run patience source).1
    serve (routes decode t patience ++ more) r h
      = (jsonResponse (run.fault.elim 200 statusCode) (evaluationJson (h.next source run t)),
          h.record source run t) := by
  have hread : readSource decode r = .ok source := readSource_of_fits hr.source hsize
  have hfind := find?_evaluate decode hr.method hr.path t patience more
  have hhead : r.method ≠ utf8 "HEAD" := by
    rw [hr.method]
    decide
  simp only [serve, if_neg (Nat.not_lt.2 hr.size), dispatch, hfind, if_neg hhead, evaluate, hread]

/-- The response to a posted source that nobody interrupts. -/
theorem Carries.serve_eq {r : Request} {source : Bytes} (hr : Carries decode r source)
    (hsize : source.length ≤ maxSourceSize) (t : History.Timing) (more : List (Route History))
    (h : History) :
    (serve (routes decode t ++ more) r h).1
      = jsonResponse ((Session.runFully source).fault.elim 200 statusCode)
          (evaluationJson (h.next source (Session.runFully source) t)) :=
  congrArg Prod.fst (hr.serve_within hsize t .endless more h)

end Api

namespace Command

/-- The command line names the source as its script, and its settings are these. -/
structure Scripted (s : Surroundings) (path source : Bytes) (settings : Settings) : Prop where
  word : path = utf8 "-" ∨ path.head? ≠ some (byte '-')
  name : Subcommand.ofName? path = none
  source : readSource s path = .ok source
  settings : Command.settings s { words := [path] } = .ok settings

/-- An argument that names no subcommand is left for running. -/
theorem subcommandOf_singleton {path : Bytes} (h : Subcommand.ofName? path = none) :
    subcommandOf [path] = (.run, [path]) := by
  have hword : firstWord? [path] = none ∨ firstWord? [path] = some path := by
    simp only [firstWord?]
    repeat' split
    all_goals simp
  rcases hword with hword | hword
  · simp only [subcommandOf, hword]
  · simp only [subcommandOf, hword, h]

/-- An argument that does not look like a flag is a word. -/
theorem readArguments_singleton (flags : List Flag) {path : Bytes}
    (h : path = utf8 "-" ∨ path.head? ≠ some (byte '-')) :
    readArguments flags {} [path] = .ok { words := [path] } := by
  rcases h with rfl | h
  · rfl
  · unfold readArguments
    split
    · exact absurd rfl h
    · exact absurd rfl h
    · rfl

/-- A command line that is read without trouble does what its subcommand is for. -/
theorem execute_eq_perform {s : Surroundings} {command : Subcommand} {args rest : List Bytes}
    {a : Arguments} {settings : Settings} (hsub : subcommandOf args = (command, rest))
    (hdoes : command.isAbout = false)
    (hread : readArguments command.flags {} rest = .ok a) (hhelp : a.isOn "help" = false)
    (hversion : a.isOn "version" = false) (hwords : wrongWords a.words command = none)
    (hsettings : Command.settings s a = .ok settings) :
    execute s args = perform s a settings command := by
  simp only [execute, hsub, hdoes, hread, hhelp, hversion, hwords, hsettings, Bool.false_eq_true,
    if_false]

/-- A script is run. -/
theorem Scripted.execute_eq {s : Surroundings} {path source : Bytes} {settings : Settings}
    (h : Scripted s path source settings) : execute s [path] = runSource settings.trace source := by
  rw [execute_eq_perform (subcommandOf_singleton h.name) rfl (readArguments_singleton _ h.word) rfl
    rfl rfl h.settings]
  simp only [perform, withSource, h.source]

/-- What a script leaves behind: with or without a fault its values are printed, and only a trace is
logged. -/
theorem runSource_eq (trace : Bool) (source : Bytes) :
    runSource trace source =
      { code := (Session.runFully source).fault.elim 0 exitCode
        out := (Session.runFully source).printed
        err := (Session.runFully source).fault.elim [] fun f => f.message ++ [Bytes.newline]
        log := if trace then Session.traceRun source (Session.runFully source) else [] } := by
  simp only [runSource]
  cases (Session.runFully source).fault with
  | none => rfl
  | some f => rfl

/-- The code of a fault is that of the phase of its first diagnostic. -/
theorem exitCode_of_first? {f : Fault} {d : Diagnostic} (h : f.first? = some d) :
    (exitCode f = 65 ∨ exitCode f = 70) ∧
      (exitCode f = 65 ↔ d.kind.phase = .scan ∨ d.kind.phase = .parse) := by
  have hstatic : d.isStatic = true ↔ d.kind.phase = .scan ∨ d.kind.phase = .parse := by
    rw [Diagnostic.isStatic]
    cases d.kind.phase <;> decide
  simp only [exitCode, h]
  split
  · next hyes => exact ⟨.inl rfl, iff_of_true rfl (hstatic.1 hyes)⟩
  · next hno => exact ⟨.inr rfl, iff_of_false (by decide) fun hphase => hno (hstatic.2 hphase)⟩

end Command

namespace Rpc

variable {patience : Patience} {source : Bytes}

/-- A call fails with the status of the fault of its run. -/
theorem evaluate_of_fault {f : Fault} (hleft : patience.left = none)
    (hfault : (Session.runFully source).fault = some f) (h : History) (t : History.Timing) :
    (evaluate h t patience source).1 = .error (.ofFault f) := by
  have hrun := Session.run_unlimited hleft source
  simp only [evaluate, hrun, hfault]

/-- A call about a valid source is answered unless its run has a fault: nothing in the answer is
beyond what messages can carry. -/
theorem evaluate_of_valid (hvalid : valid source = true) (patience : Patience) (h : History)
    (t : History.Timing) :
    let run := (Session.run patience source).1
    (evaluate h t patience source).1
      = run.fault.elim (.ok (.ofEvaluation (h.next source run t)))
          (fun f => .error (.ofFault f)) := by
  have hresults : ((Session.run patience source).1.outcomes.map ResultMessage.ofOutcome).all
      ResultMessage.valid = true := by
    simp only [List.all_map, List.all_eq_true, Function.comp_apply]
    intro o ho
    obtain ⟨hexpression, hvalue⟩ := Session.outcomes_valid hvalid patience o ho
    exact valid_ofOutcome hexpression hvalue
  cases hfault : (Session.run patience source).1.fault with
  | some f => simp only [evaluate, hfault, Option.elim]
  | none =>
    simp only [evaluate, hfault]
    exact if_pos hresults

/-- A call about a valid source that runs to its end is answered. -/
theorem evaluate_of_clean (hvalid : valid source = true) (hleft : patience.left = none)
    (hfault : (Session.runFully source).fault = none) (h : History) (t : History.Timing) :
    (evaluate h t patience source).1
      = .ok (.ofEvaluation (h.next source (Session.runFully source) t)) := by
  have hanswer := evaluate_of_valid hvalid patience h t
  simp only [Session.run_unlimited hleft, hfault, Option.elim_none] at hanswer
  exact hanswer

end Rpc

/-! ## Agreement -/

namespace Fronts

/-- What the front ends say of a run without a fault: the message `m` and the object `j` in the
response hold the results of the run, and their values are what the command prints. -/
structure Accepted (run : Run) (m : Rpc.EvaluationMessage) (j : Json) (web : Http.Response)
    (call : Except Rpc.Status Rpc.EvaluationMessage) (report : Command.Report) : Prop where
  fault : run.fault = none
  answer : call = .ok m
  response : web = Api.jsonResponse 200 j
  code : report.code = 0
  results : m.results = Rpc.resultsOf run
  shown : j.member? "results" = some (.array (m.results.map Rpc.ResultMessage.json))
  printed : report.out = Bytes.lines (m.results.map fun r => r.value.text)
  error : j.member? "error" = none
  err : report.err = []

/-- What the front ends say of a run that ends with the fault `f`: the status of the call with its
`info`, the member `e` of the object `j` in the response, and the command describe that fault alike;
the object and the command show the results in front of it. -/
structure Rejected (run : Run) (f : Fault) (status : Rpc.Status) (info : Rpc.ErrorInfo)
    (j e : Json) (web : Http.Response) (call : Except Rpc.Status Rpc.EvaluationMessage)
    (report : Command.Report) : Prop where
  fault : run.fault = some f
  answer : call = .error status
  response : web = Api.jsonResponse 422 j
  code : report.code = 65 ∨ report.code = 70
  told : status.code = .invalidArgument ∧ status.info = some info ∧ status.message = f.message
  error : j.member? "error" = some e
  kind : e.member? "kind" = some (.string info.reason.name)
  line : e.member? "line" = some (.ofInt info.line)
  message : e.member? "message" = some (.string status.message)
  err : report.err = status.message ++ [Bytes.newline]
  phase : report.code = 65 ↔ info.phase = .scan ∨ info.phase = .parse
  shown : j.member? "results"
    = some (.array ((Rpc.resultsOf run).map Rpc.ResultMessage.json))
  printed : report.out = Bytes.lines ((Rpc.resultsOf run).map fun r => r.value.text)

/-- A response, the answer to a call and the report of a command say the same of a run. -/
def Agree (run : Run) (web : Http.Response) (call : Except Rpc.Status Rpc.EvaluationMessage)
    (report : Command.Report) : Prop :=
  (∃ m j, Accepted run m j web call report) ∨
    ∃ f status info j e, Rejected run f status info j e web call report

theorem member?_results (h : History) (source : Bytes) (run : Run) (t : History.Timing) :
    (Api.evaluationJson (h.next source run t)).member? "results"
      = some (.array ((Rpc.resultsOf run).map Rpc.ResultMessage.json)) := by
  rw [Rpc.map_json_resultsOf]
  unfold Api.evaluationJson
  cases (h.next source run t).failure <;> rfl

theorem member?_error (h : History) (source : Bytes) (run : Run) (t : History.Timing) :
    (Api.evaluationJson (h.next source run t)).member? "error"
      = run.fault.map fun f => Api.failureJson (.ofFault f) := by
  simp only [Api.evaluationJson, Store.next]
  cases run.fault <;> rfl

/-- The failure that is kept of a fault with a known diagnostic, as JSON. -/
theorem failureJson_ofFault {f : Fault} {d : Diagnostic} (h : f.first? = some d)
    (hknown : d.kind.known = true) :
    Api.failureJson (.ofFault f)
      = Api.faultJson 422 (utf8 "INVALID_ARGUMENT") (some (d.kind, d.line)) f.message := by
  have hname : d.kind.name.isEmpty = false := by
    revert hknown
    cases d.kind with
    | other name => simp [DiagnosticKind.known]
    | _ => decide
  simp only [Failure.ofFault, h, Api.failureJson, hname]
  rfl

variable {source path : Bytes} {patience : Patience} {s : Command.Surroundings}
  {settings : Settings}

section Answers

/-! A source that is short enough is carried by a request, sent by a caller who never interrupts, and
named as a script. -/

variable {decode : Api.Decoder} {r : Http.Request} (hsize : source.length ≤ Api.maxSourceSize)
  (hleft : patience.left = none) (hr : Api.Carries decode r source)
  (hs : Command.Scripted s path source settings) (t t' : History.Timing) (h h' : History)
  (more : List (Http.Route History))

include hsize hleft hr hs

/-- A valid source without a fault is accepted. -/
theorem accepted_of_clean (hvalid : valid source = true)
    (hfault : (Session.runFully source).fault = none) :
    Accepted (Session.runFully source)
      (.ofEvaluation (h'.next source (Session.runFully source) t'))
      (Api.evaluationJson (h.next source (Session.runFully source) t))
      (Api.serve (Api.routes decode t ++ more) r h).1 (Rpc.evaluate h' t' patience source).1
      (Command.execute s [path]) where
  fault := hfault
  answer := Rpc.evaluate_of_clean hvalid hleft hfault h' t'
  response := by
    rw [hr.serve_eq hsize, hfault]
    rfl
  code := by
    rw [hs.execute_eq, Command.runSource_eq, hfault]
    rfl
  results := rfl
  shown := member?_results h source _ t
  printed := by
    rw [hs.execute_eq, Command.runSource_eq]
    exact (Rpc.lines_resultsOf _).symm
  error := by
    rw [member?_error, hfault]
    rfl
  err := by
    rw [hs.execute_eq, Command.runSource_eq, hfault]
    rfl

/-- A source with a fault is rejected; all front ends go by the first diagnostic of the fault. -/
theorem rejected_of_fault {f : Fault} {d : Diagnostic}
    (hfault : (Session.runFully source).fault = some f) (hfirst : f.first? = some d)
    (hknown : d.kind.known = true) :
    Rejected (Session.runFully source) f
      ⟨.invalidArgument, f.message, some ⟨d.kind, d.line, d.kind.phase⟩⟩
      ⟨d.kind, d.line, d.kind.phase⟩
      (Api.evaluationJson (h.next source (Session.runFully source) t))
      (Api.faultJson 422 (utf8 "INVALID_ARGUMENT") (some (d.kind, d.line)) f.message)
      (Api.serve (Api.routes decode t ++ more) r h).1 (Rpc.evaluate h' t' patience source).1
      (Command.execute s [path]) where
  fault := hfault
  answer := by rw [Rpc.evaluate_of_fault hleft hfault, Rpc.Status.ofFault_eq hfirst]
  response := by
    rw [hr.serve_eq hsize, hfault]
    simp only [Option.elim, Api.statusCode, hfirst, Option.isSome_some, if_true]
  code := by
    rw [hs.execute_eq, Command.runSource_eq, hfault]
    exact (Command.exitCode_of_first? hfirst).1
  told := ⟨rfl, rfl, rfl⟩
  error := by
    rw [member?_error, hfault, Option.map_some, failureJson_ofFault hfirst hknown]
  kind := rfl
  line := rfl
  message := rfl
  err := by
    rw [hs.execute_eq, Command.runSource_eq, hfault]
    rfl
  phase := by
    rw [hs.execute_eq, Command.runSource_eq, hfault]
    exact (Command.exitCode_of_first? hfirst).2
  shown := member?_results h source _ t
  printed := by
    rw [hs.execute_eq, Command.runSource_eq]
    exact (Rpc.lines_resultsOf _).symm

end Answers

/-- **All front ends say the same of a source.** There is a request that posts a source which is
valid and short enough. Whatever the histories, the times and the other routes are, the response to
each such request agrees with the answer to a call that is never interrupted and with the report of
a command that runs the source as its script; and the command logs nothing unless it traces. -/
theorem answers_agree {decode : Api.Decoder} (hjson : Api.ReadsJson decode)
    (hvalid : valid source = true) (hsize : source.length ≤ Api.maxSourceSize)
    (hleft : patience.left = none) (hs : Command.Scripted s path source settings) :
    (∃ r, Api.Carries decode r source) ∧
    (∀ r, Api.Carries decode r source → ∀ (t t' : History.Timing) (h h' : History)
        (more : List (Http.Route History)),
      Agree (Session.runFully source) (Api.serve (Api.routes decode t ++ more) r h).1
        (Rpc.evaluate h' t' patience source).1 (Command.execute s [path])) ∧
    (settings.trace = false → (Command.execute s [path]).log = []) := by
  refine ⟨Api.exists_carries hjson hvalid hsize, ?_, ?_⟩
  · intro r hr t t' h h' more
    cases hfault : (Session.runFully source).fault with
    | none => exact .inl ⟨_, _, accepted_of_clean hsize hleft hr hs t t' h h' more hvalid hfault⟩
    | some f =>
      obtain ⟨d, hfirst, hknown⟩ := Session.exists_first? hfault
      exact .inr ⟨f, _, _, _, _,
        rejected_of_fault hsize hleft hr hs t t' h h' more hfault hfirst hknown⟩
  · intro htrace
    rw [hs.execute_eq, Command.runSource_eq, htrace]
    rfl

/-- A script on the standard input that fails behind its first value; in the request one of its
characters is escaped. -/
theorem answers_agree_input :
    let source := utf8 "\"é\";\n-\"é\""
    let support : Command.Support :=
      ⟨fun _ => ({}, none), fun _ => .error [], fun _ _ => {}, fun _ _ => {}⟩
    let s : Command.Surroundings :=
      ⟨support, ⟨fun _ => .error (.plain []), fun _ => .error (.plain []), fun _ => false⟩, [], none,
        source⟩
    let r : Http.Request := ⟨utf8 "POST", utf8 "/v1/evaluate", utf8 "application/json", [],
      utf8 "\x7b\"source\":\"\\\"é\\\";\\n-\\\"\\u00e9\\\"\"\x7d"⟩
    let t : History.Timing := ⟨.zero, ⟨0⟩⟩
    Api.ReadsJson Api.jsonOnly ∧ valid source = true ∧ source.length ≤ Api.maxSourceSize ∧
      Command.Scripted s (utf8 "-") source .default ∧ Api.Carries Api.jsonOnly r source ∧
      (Session.runFully source).outcomes.length = 1 ∧
      Agree (Session.runFully source) (Api.serve (Api.routes Api.jsonOnly t ++ []) r (.empty 0)).1
        (Rpc.evaluate (.empty 0) t .endless source).1 (Command.execute s [utf8 "-"]) := by
  intro source support s r t
  have hvalid : valid source = true := by with_unfolding_all rfl
  have hsize : source.length ≤ Api.maxSourceSize := by decide
  have hs : Command.Scripted s (utf8 "-") source .default := ⟨.inl rfl, by decide, rfl, rfl⟩
  have hr : Api.Carries Api.jsonOnly r source := by
    refine ⟨rfl, by decide, by decide, ?_⟩
    with_unfolding_all rfl
  have hlength : (Session.runFully source).outcomes.length = 1 := by with_unfolding_all rfl
  have hjson := Api.readsJson_jsonOnly
  exact ⟨hjson, hvalid, hsize, hs, hr, hlength,
    (answers_agree hjson hvalid hsize rfl hs).2.1 r hr t t _ _ []⟩

end Fronts

end Reckoner
