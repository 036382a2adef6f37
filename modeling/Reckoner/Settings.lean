import Reckoner.Files
import Reckoner.Number.Integer

/-!
# Reckoner.Settings — how the interpreter is set up

Settings come from four sources, each one overriding those before it: the defaults, a file, the
environment and flags. A file assigns some of the fields. The variables of the environment are
applied in a fixed order, and one that is refused leaves the fields of those before it changed.
-/

namespace Reckoner

/-- The settings. -/
structure Settings where
  /-- The address that servers bind to. -/
  host : Bytes := utf8 "0.0.0.0"
  port : Int := 8787
  grpcPort : Int := 8788
  /-- How many evaluations are kept. -/
  historySize : Int := 500
  /-- Are tokens, trees and values logged? -/
  trace : Bool := false
  prompt : Bytes := utf8 "> "
  /-- Where the lines of the prompt are kept. -/
  historyFile : Bytes := utf8 ".golox_history"
  deriving DecidableEq

/-- The variables of the environment. -/
abbrev Environment := List (Bytes × Bytes)

/-- The value of a variable; one that is empty counts as not set. -/
def Environment.value? (env : Environment) (name : Bytes) : Option Bytes :=
  match env.lookup name with
  | some [] => none
  | v => v

namespace Settings

/-- The settings that hold when nothing is set. -/
def default : Settings := {}

/-- Some fields with their values. -/
structure Assignment where
  host : Option Bytes := none
  port : Option Int := none
  grpcPort : Option Int := none
  historySize : Option Int := none
  trace : Option Bool := none
  prompt : Option Bytes := none
  historyFile : Option Bytes := none
  deriving DecidableEq

/-- The settings with some fields assigned. -/
def overlay (s : Settings) (a : Assignment) : Settings where
  host := a.host.getD s.host
  port := a.port.getD s.port
  grpcPort := a.grpcPort.getD s.grpcPort
  historySize := a.historySize.getD s.historySize
  trace := a.trace.getD s.trace
  prompt := a.prompt.getD s.prompt
  historyFile := a.historyFile.getD s.historyFile

/-! ## The environment -/

/-- A variable of the environment and how its value is taken over. -/
structure Variable where
  name : String
  put : Settings → Bytes → Except Fault Settings

/-- The variables of this name hold an integer. -/
def intVariable (name : String) (set : Settings → Int → Settings) : Variable where
  name
  put s v :=
    match Number.readInt v with
    | .ok n => .ok (set s n)
    | .error r => .error (.wrapped (utf8 name) (.plain (r.message "Atoi" v)))

/-- The variables that count, in the order in which they are applied. -/
def knownVariables : List Variable :=
  [ { name := "HOST", put := fun s v => .ok { s with host := v } },
    intVariable "PORT" fun s n => { s with port := n },
    intVariable "GRPC_PORT" fun s n => { s with grpcPort := n },
    intVariable "GOLOX_HISTORY_SIZE" fun s n => { s with historySize := n },
    { name := "GOLOX_TRACE"
      put := fun s v =>
        match Number.readSwitch v with
        | .ok b => .ok { s with trace := b }
        | .error r => .error (.wrapped (utf8 "GOLOX_TRACE") (.plain (r.message "ParseBool" v))) } ]

/-- Applies variables in order up to the first one that is refused. -/
def applyVariables (env : Environment) (s : Settings) : List Variable → Settings × Option Fault
  | [] => (s, none)
  | v :: rest =>
    match env.value? (utf8 v.name) with
    | none => applyVariables env s rest
    | some text =>
      match v.put s text with
      | .ok s => applyVariables env s rest
      | .error f => (s, some f)

/-- Applies the environment. -/
def applyEnvironment (s : Settings) (env : Environment) : Settings × Option Fault :=
  applyVariables env s knownVariables

/-! ## Validity -/

/-- Is this the number of a port? -/
def isPort (n : Int) : Bool := 0 < n && n ≤ 65535

/-- What makes the settings unusable, if anything does. -/
def check (s : Settings) : Option Fault :=
  if !isPort s.port then some (.plain (utf8 "invalid port " ++ Number.decimalInt s.port))
  else if !isPort s.grpcPort then
    some (.plain (utf8 "invalid grpc port " ++ Number.decimalInt s.grpcPort))
  else if s.historySize ≤ 0 then
    some (.plain (utf8 "history size must be positive, got " ++ Number.decimalInt s.historySize))
  else none

/-- The address of the HTTP server. -/
def address (s : Settings) : Bytes := s.host ++ byte ':' :: Number.decimalInt s.port

/-- The address of the call server. -/
def grpcAddress (s : Settings) : Bytes := s.host ++ byte ':' :: Number.decimalInt s.grpcPort

end Settings

end Reckoner
