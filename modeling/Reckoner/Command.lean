import Reckoner.Fault

/-!
# Reckoner.Command — how a command ends

A command ends with a code and the texts it has written. Codes follow the convention of system
programs: 64 for a wrong command line, 65 for a source that cannot be read, 66 for a missing file
and 70 for a source that fails when it is run.
-/

namespace Reckoner

/-- The end of a command with a code; what happened has been reported if there is no fault. -/
structure Exit where
  code : Int
  fault : Option Fault

/-- The end of a command in words. -/
def Exit.message (e : Exit) : Bytes :=
  match e.fault with
  | none => utf8 "exit status " ++ Number.decimalInt e.code
  | some f => f.message

namespace Command

/-- A wrong command line. -/
def usageCode : Int := 64

/-- A source that cannot be read. -/
def dataCode : Int := 65

/-- A missing file. -/
def noInputCode : Int := 66

/-- A source that fails when it is run. -/
def softwareCode : Int := 70

/-- The code of a fault of running a source. -/
def exitCode (f : Fault) : Int :=
  match f.first? with
  | some d => if d.isStatic then dataCode else softwareCode
  | none => softwareCode

/-- What a command leaves behind. -/
structure Report where
  code : Int := 0
  out : Bytes := []
  err : Bytes := []
  log : Bytes := []
  /-- The files that are written, with their new contents. -/
  written : List (Bytes × Bytes) := []

/-- Ends a command. -/
def Report.exit (r : Report) (e : Exit) : Report :=
  { r with
    code := e.code
    err := r.err ++ e.fault.elim [] fun f => f.message ++ [Bytes.newline] }

/-- Ends a command with a fault that has no code of its own. -/
def Report.fail (r : Report) (message : Bytes) : Report :=
  { r with code := 1, err := r.err ++ utf8 "Error: " ++ message ++ [Bytes.newline] }

end Command

end Reckoner
