import Reckoner.Session
import Reckoner.Text.Quoted

/-!
# Reckoner.Suite — expected behaviour of sources

A suite is a list of cases: a source and what running it must come to. A case may expect the value
of the last expression, the printed trees, or a fault. Checking a case gives the list of what is
not as expected, so a case passes when the list is empty.
-/

namespace Reckoner

/-- The fault a case expects. Line zero and an empty message are not checked. -/
structure ExpectedFault where
  kind : DiagnosticKind
  line : Int
  message : Bytes

/-- A source with what is expected of it. -/
structure Case where
  name : Bytes
  source : Bytes
  /-- The value of the last expression, printed. -/
  value : Option Bytes
  /-- The trees, printed. -/
  tree : Option Bytes
  fault : Option ExpectedFault

/-- A named list of cases. -/
structure Suite where
  name : Bytes
  cases : List Case

/-- What came of a case. -/
structure CaseResult where
  name : Bytes
  failures : List Bytes

/-- Was everything as expected? -/
def CaseResult.passed (r : CaseResult) : Bool := r.failures.isEmpty

/-- What came of a suite. -/
structure SuiteReport where
  suite : Bytes
  results : List CaseResult

namespace SuiteReport

/-- How many cases passed? -/
def passed (r : SuiteReport) : Nat := r.results.countP CaseResult.passed

/-- How many cases failed? -/
def failed (r : SuiteReport) : Nat := r.results.length - r.passed

/-- Did every case pass? -/
def ok (r : SuiteReport) : Bool := r.failed == 0

end SuiteReport

namespace Case

/-- Printed trees on one line. -/
def treesText (trees : List Tree) : Bytes := Bytes.join (utf8 "; ") (trees.map Tree.text)

/-- May the trees of the source be incomplete, because a fault of reading is expected? -/
def expectsStaticFault (c : Case) : Bool :=
  match c.fault with
  | some want => want.kind.phase ≠ .runtime
  | none => false

/-- What is wrong with the trees of the source. -/
def treeFailures (c : Case) : List Bytes :=
  match c.tree with
  | none => []
  | some want =>
    let complain (got : Bytes) : List Bytes :=
      if got = want then []
      else [utf8 "tree: got " ++ Text.quote got ++ utf8 ", want " ++ Text.quote want]
    match Session.parse c.source with
    | (trees, none) => complain (treesText trees)
    | (trees, some f) =>
      if c.expectsStaticFault then complain (treesText trees)
      else [utf8 "tree: unexpected error: " ++ f.message]

/-- What is wrong with the fault of a run. -/
def faultFailures (want : ExpectedFault) (fault : Option Fault) : List Bytes :=
  match fault with
  | none => [utf8 "error: got none, want " ++ want.kind.name]
  | some f =>
    match f.first? with
    | none => [utf8 "error: got " ++ f.message ++ utf8 ", want " ++ want.kind.name]
    | some d =>
      (if d.kind = want.kind then []
        else [utf8 "error: got kind " ++ d.kind.name ++ utf8 ", want " ++ want.kind.name
          ++ utf8 " (" ++ f.message ++ utf8 ")"])
      ++ (if want.line = 0 ∨ d.line = want.line then []
        else [utf8 "error: got line " ++ Number.decimalInt d.line ++ utf8 ", want "
          ++ Number.decimalInt want.line])
      ++ (if want.message.isEmpty ∨ Bytes.mentions want.message f.message then []
        else [utf8 "error: " ++ Text.quote f.message ++ utf8 " does not mention "
          ++ Text.quote want.message])

/-- What is wrong with a run of the source. -/
def runFailures (c : Case) (r : Run) : List Bytes :=
  match c.fault with
  | some want => faultFailures want r.fault
  | none =>
    match r.fault with
    | some f => [utf8 "unexpected error: " ++ f.message]
    | none =>
      match c.value with
      | none => []
      | some want =>
        if r.last.text = want then []
        else [utf8 "value: got " ++ Text.quote r.last.text ++ utf8 ", want " ++ Text.quote want]

/-- Checks a case; gives the patience that is left as well. -/
def check (patience : Patience) (c : Case) : CaseResult × Patience :=
  let (r, patience) := Session.run patience c.source
  (⟨c.name, c.treeFailures ++ c.runFailures r⟩, patience)

/-- The log of checking a case. -/
def trace (patience : Patience) (c : Case) : Bytes :=
  let (r, _) := Session.run patience c.source
  (if c.tree.isSome then Session.traceParse c.source else []) ++ Session.traceRun c.source r

end Case

namespace Suite

/-- Checks cases in order. -/
def checkCases (patience : Patience) : List Case → List CaseResult
  | [] => []
  | c :: rest =>
    let (r, patience) := c.check patience
    r :: checkCases patience rest

/-- Checks a suite. -/
def check (patience : Patience) (s : Suite) : SuiteReport :=
  ⟨s.name, checkCases patience s.cases⟩

/-- The largest suite in bytes. -/
def maxSize : Nat := 1024 * 1024

/-- What keeps a case, the one with this index, from being accepted behind cases with the names
`seen`. -/
def objection? (seen : List Bytes) (index : Nat) (c : Case) : Option Bytes :=
  let about (problem : Bytes) : Bytes :=
    utf8 "case " ++ Text.quote c.name ++ utf8 ": " ++ problem
  if c.name.isEmpty then some (utf8 "case " ++ Number.decimal index ++ utf8 ": missing name")
  else if seen.contains c.name then some (about (utf8 "duplicate name"))
  else
    match c.fault with
    | none =>
      if c.value.isNone && c.tree.isNone then some (about (utf8 "expects nothing")) else none
    | some want =>
      if c.value.isSome then some (about (utf8 "cannot expect both a value and an error"))
      else if !want.kind.known then
        some (about (utf8 "unknown error kind " ++ Text.quote want.kind.name))
      else none

/-- The first objection against a list of cases. -/
def firstObjection? (seen : List Bytes) (index : Nat) : List Case → Option Bytes
  | [] => none
  | c :: rest =>
    match objection? seen index c with
    | some problem => some problem
    | none => firstObjection? (c.name :: seen) (index + 1) rest

/-- What keeps a suite from being accepted. -/
def validate (s : Suite) : Except Fault Suite :=
  if s.cases.isEmpty then .error (.plain (utf8 "suite has no cases"))
  else
    match firstObjection? [] 0 s.cases with
    | some problem => .error (.plain problem)
    | none => .ok s

end Suite

end Reckoner
