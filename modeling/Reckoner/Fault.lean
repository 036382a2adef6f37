import Reckoner.Diagnostic

/-!
# Reckoner.Fault — why something failed

A fault is a tree: diagnostics, plain messages and interruptions at the leaves, faults wrapped in
a context or joined side by side above them. The first diagnostic of the tree, depth first and
from left to right, decides how the whole fault is classified.
-/

namespace Reckoner

/-- Why a run was told to stop. -/
inductive Interruption where
  | canceled
  | deadlineExceeded
  deriving DecidableEq, Repr

/-- An interruption as it is reported. -/
def Interruption.message : Interruption → Bytes
  | canceled => utf8 "context canceled"
  | deadlineExceeded => utf8 "context deadline exceeded"

/-- A failure with its causes. -/
inductive Fault where
  | diagnostic (d : Diagnostic)
  | plain (text : Bytes)
  | interrupted (cause : Interruption)
  /-- A fault seen from a larger undertaking, which is named in front of it. -/
  | wrapped (context : Bytes) (inner : Fault)
  /-- Several faults, in order. -/
  | joined (members : List Fault)
  deriving Repr

namespace Fault

mutual

/-- The fault as it is reported; joined faults stand on lines of their own. -/
def message : Fault → Bytes
  | diagnostic d => d.message
  | plain text => text
  | interrupted cause => cause.message
  | wrapped context inner => context ++ utf8 ": " ++ inner.message
  | joined members => Bytes.join [Bytes.newline] (messages members)

/-- The messages of several faults. -/
def messages : List Fault → List Bytes
  | [] => []
  | f :: rest => f.message :: messages rest

end

mutual

/-- The diagnostics of a fault, depth first and from left to right. -/
def diagnostics : Fault → List Diagnostic
  | diagnostic d => [d]
  | plain _ => []
  | interrupted _ => []
  | wrapped _ inner => inner.diagnostics
  | joined members => diagnosticsOf members

/-- The diagnostics of several faults. -/
def diagnosticsOf : List Fault → List Diagnostic
  | [] => []
  | f :: rest => f.diagnostics ++ diagnosticsOf rest

end

mutual

/-- The first diagnostic of a fault. -/
def first? : Fault → Option Diagnostic
  | diagnostic d => some d
  | plain _ => none
  | interrupted _ => none
  | wrapped _ inner => inner.first?
  | joined members => firstOf? members

/-- The first diagnostic of several faults. -/
def firstOf? : List Fault → Option Diagnostic
  | [] => none
  | f :: rest => match f.first? with
    | some d => some d
    | none => firstOf? rest

end

/-- The fault that several ones make together; none make no fault. -/
def join? (faults : List Fault) : Option Fault :=
  if faults.isEmpty then none else some (joined faults)

/-- The kind of the first diagnostic; the nameless kind if there is none. -/
def kind (f : Fault) : DiagnosticKind := (f.first?.map Diagnostic.kind).getD (.other [])

/-- Does the fault count as one of this kind? Its first diagnostic decides. -/
def isKind (f : Fault) (k : DiagnosticKind) : Bool := f.kind = k

end Fault

end Reckoner
