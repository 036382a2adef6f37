import Reckoner.Token.Scan
import Reckoner.Tree.Parse
import Reckoner.Tree.Eval

/-!
# Reckoner.Session — running a source

A run reads a whole source and then evaluates its trees in order. Faults of reading come before
anything is evaluated; the first fault of evaluation ends the run and keeps the outcomes so far.
Before each tree the caller's patience is asked, which may end the run as well.
-/

namespace Reckoner

/-- How long a caller lets a run go on: the number of times that it still answers "go on", if
there is a limit, and what it says afterwards. -/
structure Patience where
  left : Option Nat
  cause : Interruption
  deriving Repr

namespace Patience

/-- The caller never interrupts. -/
def endless : Patience := ⟨none, .canceled⟩

/-- The caller interrupts once it has been asked `n` times. -/
def limited (n : Nat) (cause : Interruption) : Patience := ⟨some n, cause⟩

/-- Asks once: the interruption, if the patience is used up, and the patience from then on. -/
def ask (p : Patience) : Option Interruption × Patience :=
  match p.left with
  | none => (none, p)
  | some 0 => (some p.cause, p)
  | some (n + 1) => (none, { p with left := some n })

end Patience

/-- A tree in printed form with its value. -/
structure Outcome where
  expression : Bytes
  value : Value

/-- What came of a run. -/
structure Run where
  outcomes : List Outcome
  fault : Option Fault

namespace Run

/-- The value of the last outcome, nil if there is none. -/
def last (r : Run) : Value := (r.outcomes.getLast?.map Outcome.value).getD .nil

/-- The values in printed form, a line each. -/
def printed (r : Run) : Bytes := Bytes.lines (r.outcomes.map fun o => o.value.text)

end Run

namespace Session

/-- The trees of a source and what is wrong with it. A source that cannot be scanned has no trees;
faults of the grammar leave the other trees intact and are joined, be it only one. -/
def parse (source : Bytes) : List Tree × Option Fault :=
  match Token.scan source with
  | .error d => ([], some (.diagnostic d))
  | .ok tokens =>
    let found := Tree.parseProgram tokens
    (found.trees, Fault.join? (found.diagnostics.map .diagnostic))

/-- Evaluates trees in order behind the outcomes in `done`, which are in reverse order. -/
def evaluateOnto (done : List Outcome) (patience : Patience) : List Tree → Run × Patience
  | [] => (⟨done.reverse, none⟩, patience)
  | t :: rest =>
    match patience.ask with
    | (some cause, patience) => (⟨done.reverse, some (.interrupted cause)⟩, patience)
    | (none, patience) =>
      match t.eval with
      | .error e => (⟨done.reverse, some e.fault⟩, patience)
      | .ok v => evaluateOnto (⟨t.text, v⟩ :: done) patience rest

/-- Runs a source; gives the patience that is left as well. -/
def run (patience : Patience) (source : Bytes) : Run × Patience :=
  match parse source with
  | (_, some fault) => (⟨[], some fault⟩, patience)
  | (trees, none) => evaluateOnto [] patience trees

/-- Runs a source for a caller that never interrupts. -/
def runFully (source : Bytes) : Run := (run .endless source).1

/-- The value of a source that holds a single expression. -/
def evaluate (source : Bytes) : Except Fault Value :=
  match Token.scan source with
  | .error d => .error (.diagnostic d)
  | .ok tokens =>
    match Tree.parseSingle tokens with
    | .error d => .error (.diagnostic d)
    | .ok t =>
      match t.eval with
      | .error e => .error e.fault
      | .ok v => .ok v

/-! ## Traces

A traced session reports what it reads and finds, a line for every token, tree and value. -/

/-- A line of the log: a newline is added unless the text ends with one. -/
def logLine (text : Bytes) : Bytes :=
  if text.getLast? = some Bytes.newline then text else text ++ [Bytes.newline]

/-- The trace of a token. -/
def traceToken (t : Token) : Bytes :=
  logLine (utf8 "token [line " ++ Number.decimalInt t.line ++ utf8 "] " ++ t.text)

/-- The trace of a tree. -/
def traceTree (t : Tree) : Bytes := logLine (utf8 "tree " ++ t.text)

/-- The trace of an outcome. -/
def traceOutcome (o : Outcome) : Bytes :=
  logLine (utf8 "value " ++ o.expression ++ utf8 " = " ++ o.value.text)

/-- The log of scanning a source. -/
def traceTokens (source : Bytes) : Bytes :=
  match Token.scan source with
  | .error _ => []
  | .ok tokens => tokens.flatMap traceToken

/-- The log of parsing a source. -/
def traceParse (source : Bytes) : Bytes :=
  traceTokens source ++ (parse source).1.flatMap traceTree

/-- The log of a run of a source. -/
def traceRun (source : Bytes) (r : Run) : Bytes :=
  traceParse source ++ r.outcomes.flatMap traceOutcome

end Session

end Reckoner
