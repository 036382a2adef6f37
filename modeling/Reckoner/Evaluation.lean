import Reckoner.Json
import Reckoner.Moment
import Reckoner.Session

/-!
# Reckoner.Evaluation — runs that are kept

An evaluation is a run of a source with a name, the time when it was made and how long it took. Of
the fault of the run, the first diagnostic and the message are kept.
-/

namespace Reckoner

/-- Why an evaluation failed: kind and line of the first diagnostic, if there is one, and the whole
message. -/
structure Failure where
  kind : DiagnosticKind
  line : Int
  message : Bytes

/-- The failure that a fault is kept as. -/
def Failure.ofFault (f : Fault) : Failure :=
  match f.first? with
  | some d => ⟨d.kind, d.line, f.message⟩
  | none => ⟨.other [], 0, f.message⟩

/-- Did an evaluation come to its end? -/
inductive EvaluationState where
  | succeeded
  | failed
  deriving DecidableEq, Repr

/-- The name of a state. -/
def EvaluationState.name : EvaluationState → Bytes
  | succeeded => utf8 "SUCCEEDED"
  | failed => utf8 "FAILED"

/-- A run of a source that is kept. -/
structure Evaluation where
  name : Bytes
  source : Bytes
  outcomes : List Outcome
  failure : Option Failure
  created : Moment
  took : Span

namespace Evaluation

/-- The state of an evaluation. -/
def state (e : Evaluation) : EvaluationState :=
  if e.failure.isSome then .failed else .succeeded

/-- An outcome as JSON. -/
def outcomeJson (o : Outcome) : Json :=
  .object [(utf8 "expression", .string o.expression), (utf8 "value", o.value.json),
    (utf8 "type", .string o.value.type.name)]

/-- A failure as JSON; an empty kind and line zero are left out. -/
def failureJson (f : Failure) : Json :=
  .object
    ((if f.kind.name.isEmpty then [] else [(utf8 "kind", Json.string f.kind.name)])
      ++ (if f.line = 0 then [] else [(utf8 "line", Json.ofInt f.line)])
      ++ [(utf8 "message", Json.string f.message)])

/-- An evaluation as JSON; years that do not have four digits cannot be written. -/
def json (e : Evaluation) : Except Fault Json :=
  let year := e.created.date.year
  if year < 0 ∨ 9999 < year then
    .error (.plain (utf8 ("json: error calling MarshalJSON for type time.Time: " ++
      "Time.MarshalJSON: year outside of range [0,9999]")))
  else
    .ok (.object
      ([(utf8 "name", .string e.name), (utf8 "source", .string e.source),
          (utf8 "state", .string e.state.name),
          (utf8 "results",
            if e.outcomes.isEmpty then .null else .array (e.outcomes.map outcomeJson))]
        ++ (e.failure.elim [] fun f => [(utf8 "error", failureJson f)])
        ++ [(utf8 "createTime", .string e.created.stamp),
          (utf8 "duration", .ofInt e.took.nanoseconds)]))

end Evaluation

/-- How many evaluations there are, by state. -/
structure Stats where
  total : Nat
  succeeded : Nat
  failed : Nat
  deriving DecidableEq, Repr

/-- The counts with one more evaluation. -/
def Stats.count (stats : Stats) (e : Evaluation) : Stats :=
  match e.state with
  | .failed => { stats with failed := stats.failed + 1 }
  | .succeeded => { stats with succeeded := stats.succeeded + 1 }

end Reckoner
