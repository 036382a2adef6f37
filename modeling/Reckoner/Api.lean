import Reckoner.Files
import Reckoner.History
import Reckoner.Http
import Reckoner.Json.Reader
import Reckoner.Text.Quoted

/-!
# Reckoner.Api — the interpreter over HTTP

Sources are sent in the bodies of requests. How bodies are decoded is left to a decoder; one that
reads JSON takes the member `source` of an object (`ReadsJson`), and may understand other types of
bodies as well. Evaluating a source records it; parsing it and cutting it into tokens does not. The
history can be listed and looked up. All answers are JSON, also those about faults, which have the
same shape everywhere.
-/

namespace Reckoner.Api

open Reckoner.Http

/-- The longest source in bytes. -/
def maxSourceSize : Nat := 1024 * 1024

/-- The longest body in bytes: every byte of a source may be escaped by six. -/
def maxBodySize : Nat := 6 * maxSourceSize + 4096

/-! ## Answers -/

/-- Answers with JSON. -/
def jsonResponse (status : Nat) (j : Json) : Response where
  status
  contentType := utf8 "application/json"
  body := j.text

/-- The HTTP status of a fault: a diagnostic is the caller's fault, all else is the server's. -/
def statusCode (f : Fault) : Nat := if f.first?.isSome then 422 else 500

/-- The name of the HTTP status of a fault. -/
def statusName (f : Fault) : Bytes :=
  if f.first?.isSome then utf8 "INVALID_ARGUMENT" else utf8 "INTERNAL"

/-- A fault in an answer: kind and line are given for a diagnostic. -/
def faultJson (code : Nat) (status : Bytes) (diagnosis : Option (DiagnosticKind × Int))
    (message : Bytes) : Json :=
  .object
    ([(utf8 "code", Json.ofInt code)]
      ++ (diagnosis.elim [] fun (kind, line) =>
        [(utf8 "kind", Json.string kind.name), (utf8 "line", Json.ofInt line)])
      ++ [(utf8 "message", Json.string message), (utf8 "status", Json.string status)])

/-- Answers with a fault. -/
def faultResponse (code : Nat) (status : Bytes) (f : Fault) : Response :=
  jsonResponse code (.object [(utf8 "error",
    faultJson code status (f.first?.map fun d => (d.kind, d.line)) f.message)])

/-- Refuses a request. -/
def refusal (message : Bytes) : Response :=
  faultResponse 400 (utf8 "INVALID_ARGUMENT") (.plain message)

/-- Refuses a request whose body is too long. -/
def tooLarge : Response :=
  refusal (utf8 "request body exceeds maximum " ++ Number.decimal maxBodySize ++ utf8 " bytes")

/-- An outcome in an answer. -/
def outcomeJson (o : Outcome) : Json :=
  .object [(utf8 "expression", .string o.expression), (utf8 "type", .string o.value.type.name),
    (utf8 "value", o.value.json)]

/-- The failure of an evaluation in an answer. -/
def failureJson (f : Failure) : Json :=
  if f.kind.name.isEmpty then faultJson 500 (utf8 "INTERNAL") none f.message
  else faultJson 422 (utf8 "INVALID_ARGUMENT") (some (f.kind, f.line)) f.message

/-- An evaluation in an answer. -/
def evaluationJson (e : Evaluation) : Json :=
  .object
    ([(utf8 "createTime", Json.string e.created.stamp), (utf8 "duration", .string e.took.text)]
      ++ (e.failure.elim [] fun f => [(utf8 "error", failureJson f)])
      ++ [(utf8 "name", .string e.name), (utf8 "results", .array (e.outcomes.map outcomeJson)),
        (utf8 "source", .string e.source), (utf8 "state", .string e.state.name)])

/-- A token in an answer. -/
def tokenJson (t : Token) : Json :=
  .object
    ([(utf8 "lexeme", Json.string t.lexeme), (utf8 "line", .ofInt t.line)]
      ++ (if t.kind.hasLiteral then [(utf8 "literal", t.literal.json)] else [])
      ++ [(utf8 "type", .string t.kind.name)])

/-! ## Bodies -/

/-- The part of a text in front of a byte, and the part behind it, if the byte is there. -/
def cutAt (b : UInt8) (s : Bytes) : Option (Bytes × Bytes) :=
  if s.contains b then some (s.takeWhile (· ≠ b), (s.dropWhile (· ≠ b)).drop 1) else none

/-- The type that a vendor's type such as `application/vnd.api+json` is read as. -/
def plainType (contentType : Bytes) : Bytes :=
  match cutAt (byte '+') contentType with
  | none => contentType
  | some (vendor, suffix) =>
    if vendor.contains (byte ';') then contentType.takeWhile (· ≠ byte ';')
    else
      match cutAt (byte '/') contentType with
      | none => contentType
      | some (family, _) => family ++ byte '/' :: suffix.takeWhile (· ≠ byte ';')

/-- Is a body of this type JSON? -/
def isJsonType (contentType : Bytes) : Bool :=
  let type := (plainType (Bytes.lower contentType)).takeWhile (· ≠ byte ';')
  (utf8 "json").isSuffixOf type

/-- Does the key of a member name the source? Case does not count, also for the long s. -/
def isSourceKey (key : Bytes) : Bool :=
  (Utf8.chars key).map (fun c => if c.toNat = 0x17F then 's' else c.toLower) = "source".toList

/-- The source among the members of a body: the last one counts, and null is passed over. -/
def sourceAmong (source : Bytes) : List (Bytes × Json) → Option Bytes
  | [] => some source
  | (key, value) :: rest =>
    if isSourceKey key then
      match value with
      | .string s => sourceAmong s rest
      | .null => sourceAmong source rest
      | _ => none
    else sourceAmong source rest

/-- The source in the text of a JSON value. -/
def jsonSource? (text : Bytes) : Option Bytes :=
  match Json.read text with
  | some (.object members) => sourceAmong [] members
  | some .null => some []
  | _ => none

/-- Is the body of a request JSON, sent as it is? -/
def isJson (r : Request) : Bool := isJsonType r.contentType && r.contentEncoding.isEmpty

/-- How a body is decoded: the source in it, or what is wrong with the body. -/
abbrev Decoder := Request → Except Bytes Bytes

/-- The decoder takes JSON as it is meant, whatever else it may understand. -/
def ReadsJson (decode : Decoder) : Prop :=
  ∀ r : Request, isJson r = true →
    ∀ source, decode r = .ok source ↔ jsonSource? r.body = some source

/-- The decoder that understands nothing but JSON. -/
def jsonOnly : Decoder := fun r =>
  match jsonSource? r.body with
  | some source => if isJson r then .ok source else .error (utf8 "not JSON")
  | none => .error (utf8 "no source in JSON")

theorem readsJson_jsonOnly : ReadsJson jsonOnly := by
  intro r hr source
  unfold jsonOnly
  cases jsonSource? r.body <;> simp [hr]

/-- The source that a request sends, or the refusal of the request. -/
def readSource (decode : Decoder) (r : Request) : Except Response Bytes :=
  match decode r with
  | .error problem => .error (refusal (utf8 "invalid request body: " ++ problem))
  | .ok source =>
    if maxSourceSize < source.length then
      .error (refusal (utf8 "source size " ++ Number.decimal source.length ++
        utf8 " exceeds maximum " ++ Number.decimal maxSourceSize ++ utf8 " bytes"))
    else .ok source

/-! ## Handlers -/

/-- Evaluates the source of a request, as far as the caller's patience goes, and records it. -/
def evaluate (decode : Decoder) (patience : Patience) (t : History.Timing) (r : Request)
    (h : History) : Response × History :=
  match readSource decode r with
  | .error response => (response, h)
  | .ok source =>
    let run := (Session.run patience source).1
    let status := run.fault.elim 200 statusCode
    (jsonResponse status (evaluationJson (h.next source run t)), h.record source run t)

/-- Prints the trees of the source of a request. -/
def parse (decode : Decoder) (r : Request) : Response :=
  match readSource decode r with
  | .error response => response
  | .ok source =>
    match Session.parse source with
    | (_, some f) => faultResponse (statusCode f) (statusName f) f
    | (trees, none) =>
      jsonResponse 200
        (.object [(utf8 "expressions", .array (trees.map fun t => .string t.text))])

/-- Lists the tokens of the source of a request. -/
def tokens (decode : Decoder) (r : Request) : Response :=
  match readSource decode r with
  | .error response => response
  | .ok source =>
    match Token.scan source with
    | .error d =>
      faultResponse (statusCode (.diagnostic d)) (statusName (.diagnostic d)) (.diagnostic d)
    | .ok tokens => jsonResponse 200 (.object [(utf8 "tokens", .array (tokens.map tokenJson))])

/-- Looks up an evaluation. -/
def getEvaluation (name : Bytes) (h : History) : Response :=
  match h.get name with
  | .error f => faultResponse 404 (utf8 "NOT_FOUND") f
  | .ok e => jsonResponse 200 (evaluationJson e)

/-- A listing of evaluations with counts. -/
def listing (evaluations : List Evaluation) (stats : Stats) : Response :=
  jsonResponse 200 (.object [(utf8 "evaluations", .array (evaluations.map evaluationJson)),
    (utf8 "failed", .ofInt stats.failed), (utf8 "succeeded", .ofInt stats.succeeded),
    (utf8 "total", .ofInt stats.total)])

/-- Lists the evaluations, then counts them. -/
def listEvaluations (h : History) : Response := listing h.list h.stats

/-- The routes; evaluations get this timing, and callers do not interrupt them unless it is said
otherwise. -/
def routes (decode : Decoder) (t : History.Timing) (patience : Patience := .endless) :
    List (Route History) :=
  [ ⟨"POST", .exactly "/v1/evaluate", fun _ r h => evaluate decode patience t r h⟩,
    ⟨"POST", .exactly "/v1/parse", fun _ r h => (parse decode r, h)⟩,
    ⟨"POST", .exactly "/v1/tokens", fun _ r h => (tokens decode r, h)⟩,
    ⟨"GET", .exactly "/v1/evaluations", fun _ _ h => (listEvaluations h, h)⟩,
    ⟨"GET", .below "/v1/evaluations", fun name _ h => (getEvaluation name h, h)⟩ ]

/-- Answers a request; a body that is too long is refused before routes are looked at. -/
def serve (routes : List (Route History)) (r : Request) (h : History) : Response × History :=
  if maxBodySize < r.body.length then (tooLarge, h) else dispatch routes r h

/-! ## Folders of scripts -/

/-- Evaluates a script and records it; gives the line for the log. -/
def runScript (t : History.Timing) (name source : Bytes) (h : History) : Bytes × History :=
  let run := Session.runFully source
  let e := h.next source run t
  let line :=
    match run.fault with
    | some f => utf8 "Script " ++ Text.quote name ++ utf8 " failed as " ++ e.name ++ utf8 ": "
        ++ f.message
    | none => utf8 "Script " ++ Text.quote name ++ utf8 " evaluated as " ++ e.name
  (line, h.record source run t)

/-- Evaluates scripts of a folder in order; counts them and gives the lines for the log. -/
def runScripts (files : Files) (t : History.Timing) (folder : Bytes) (h : History) (count : Nat)
    (log : List Bytes) : List Bytes → History × Nat × List Bytes
  | [] => (h, count, log.reverse)
  | name :: rest =>
    match files.read (Path.inside folder name) with
    | .error f =>
      runScripts files t folder h count
        ((utf8 "Warning: could not read " ++ Text.quote name ++ utf8 ": " ++ f.message) :: log) rest
    | .ok source =>
      if maxSourceSize < source.length then
        runScripts files t folder h count
          ((utf8 "Warning: skipping " ++ Text.quote name ++ utf8 ": "
            ++ Number.decimal source.length ++ utf8 " bytes exceeds maximum "
            ++ Number.decimal maxSourceSize) :: log)
          rest
      else
        let (line, h) := runScript t name source h
        runScripts files t folder h (count + 1) (line :: log) rest

/-- Evaluates all scripts of a folder in the order of their names; gives the log. -/
def runFolder (files : Files) (t : History.Timing) (folder : Bytes) (h : History) :
    Bytes × Option Fault × History :=
  match files.list folder with
  | .error f => ([], some (.wrapped (utf8 "reading scripts directory") f), h)
  | .ok entries =>
    let names := (entries.filter fun e => !e.2 && Path.extension e.1 = utf8 ".lox").map Prod.fst
    let (h, count, log) := runScripts files t folder h 0 [] names
    let last := utf8 "Evaluated " ++ Number.decimal count ++ utf8 " script(s) from " ++ folder
    ((log ++ [last]).flatMap Session.logLine, none, h)

end Reckoner.Api
