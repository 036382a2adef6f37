import Reckoner.History

/-!
# Reckoner.Rpc — remote calls

Two calls: evaluating a source, which is recorded in the history, and parsing one. A call answers
with a message or fails with a status. Messages carry texts as strings, which have to be valid
UTF-8.
-/

namespace Reckoner.Rpc

/-- How a call failed. -/
inductive StatusCode where
  | canceled
  | deadlineExceeded
  | invalidArgument
  | internal
  deriving DecidableEq, Repr

/-- The name of a status code. -/
def StatusCode.name : StatusCode → String
  | canceled => "Canceled"
  | deadlineExceeded => "DeadlineExceeded"
  | invalidArgument => "InvalidArgument"
  | internal => "Internal"

/-- What a status tells about a diagnostic. -/
structure ErrorInfo where
  reason : DiagnosticKind
  line : Int
  phase : Phase

/-- The domain of the reasons. -/
def ErrorInfo.domain : Bytes := utf8 "golox.dev"

/-- Why a call failed. -/
structure Status where
  code : StatusCode
  message : Bytes
  info : Option ErrorInfo := none

/-- The status of a fault. Interruptions count only as such; a fault with a diagnostic is the
caller's. -/
def Status.ofFault (f : Fault) : Status :=
  match f with
  | .interrupted .canceled => { code := .canceled, message := f.message }
  | .interrupted .deadlineExceeded => { code := .deadlineExceeded, message := f.message }
  | _ =>
    match f.first? with
    | none => { code := .internal, message := f.message }
    | some d =>
      { code := .invalidArgument
        message := f.message
        info := some ⟨d.kind, d.line, d.kind.phase⟩ }

/-- A value in a message. -/
inductive Field where
  | null
  | bool (b : Bool)
  | number (x : Float)
  | string (s : Bytes)

/-- A value as it is carried: numbers that are not finite become texts. -/
def Field.ofValue : Value → Field
  | .nil => null
  | .bool b => bool b
  | .number x => if Number.isFinite x then number x else string (Number.text x)
  | .string s => string s

/-- Can the value be carried? -/
def Field.valid : Field → Bool
  | string s => Utf8.valid s
  | _ => true

/-- An outcome in a message. -/
structure ResultMessage where
  expression : Bytes
  type : ValueType
  value : Field

/-- Can the outcome be carried? -/
def ResultMessage.valid (r : ResultMessage) : Bool := Utf8.valid r.expression && r.value.valid

/-- The answer to an evaluation. -/
structure EvaluationMessage where
  name : Bytes
  state : EvaluationState
  results : List ResultMessage

/-- An outcome as a message. -/
def ResultMessage.ofOutcome (o : Outcome) : ResultMessage :=
  ⟨o.expression, o.value.type, .ofValue o.value⟩

/-- An evaluation as a message. -/
def EvaluationMessage.ofEvaluation (e : Evaluation) : EvaluationMessage :=
  ⟨e.name, e.state, e.outcomes.map .ofOutcome⟩

/-- The status of an answer that cannot be carried. -/
def unencodable (what : String) : Status where
  code := .internal
  message := utf8 "failed to encode " ++ utf8 what ++ utf8 ": invalid UTF-8"

/-- The call that evaluates a source and records it. -/
def evaluate (h : History) (t : History.Timing) (patience : Patience) (source : Bytes) :
    Except Status EvaluationMessage × History :=
  let (r, _) := Session.run patience source
  let e := h.next source r t
  let answer :=
    match r.fault with
    | some f => .error (Status.ofFault f)
    | none =>
      let m := EvaluationMessage.ofEvaluation e
      if m.results.all ResultMessage.valid then .ok m else .error (unencodable "evaluation")
  (answer, h.record source r t)

/-- The call that prints the trees of a source. -/
def parse (source : Bytes) : Except Status (List Bytes) :=
  match Session.parse source with
  | (_, some f) => .error (Status.ofFault f)
  | (trees, none) =>
    let printed := trees.map Tree.text
    if printed.all Utf8.valid then .ok printed else .error (unencodable "trees")

/-- The full names of the calls. -/
def evaluateMethod : Bytes := utf8 "/golox.v1.Interpreter/Evaluate"

@[inherit_doc evaluateMethod]
def parseMethod : Bytes := utf8 "/golox.v1.Interpreter/Parse"

end Reckoner.Rpc
