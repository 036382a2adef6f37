import Reckoner.Settings
import Reckoner.Yaml.Fields

/-!
# Reckoner.Settings.Load — settings from a file and the environment

A file of settings assigns some of the fields. What it assigns is left to a decoder;
`Assignment.ofYaml` is the one for YAML mappings. Where the decoder finds something wrong, the fields
that it could read are still assigned.
-/

namespace Reckoner.Settings

namespace Assignment

/-- The names of the fields in a file. -/
def fields : List Bytes :=
  ["host", "port", "grpcPort", "historySize", "trace", "prompt", "historyFile"].map utf8

/-- Assigns the field of this name. -/
def put (a : Assignment) (name : Bytes) (v : Yaml.Node) : Yaml.Partial Assignment :=
  if name = utf8 "host" then v.readText.store a fun s => { a with host := some s }
  else if name = utf8 "port" then v.readInt.store a fun n => { a with port := some n }
  else if name = utf8 "grpcPort" then v.readInt.store a fun n => { a with grpcPort := some n }
  else if name = utf8 "historySize" then
    v.readInt.store a fun n => { a with historySize := some n }
  else if name = utf8 "trace" then v.readSwitch.store a fun b => { a with trace := some b }
  else if name = utf8 "prompt" then v.readText.store a fun s => { a with prompt := some s }
  else v.readText.store a fun s => { a with historyFile := some s }

/-- How a file is decoded: what it assigns, and what is wrong with it if anything is. -/
abbrev Decoder := Bytes → Assignment × Option Bytes

/-- The decoder for YAML. What has the wrong type is left out; a file that is no YAML assigns
nothing. -/
def ofYaml : Decoder := fun file =>
  match Yaml.load file with
  | .error t => ({}, some t.message)
  | .ok none => ({}, none)
  | .ok (some n) =>
    let p := n.readRecord fields put {}
    (p.record, if p.complete then none else some (utf8 "yaml: unmarshal errors"))

end Assignment

/-- The settings with a file over them. -/
def overlayFile (decode : Assignment.Decoder) (s : Settings) (file : Bytes) :
    Settings × Option Fault :=
  let (a, problem) := decode file
  (s.overlay a, problem.map fun p => .wrapped (utf8 "parse config") (.plain p))

/-- The defaults with the file at this path over them, if the path is not empty. -/
def ofFile (decode : Assignment.Decoder) (files : Files) (path : Bytes) :
    Settings × Option Fault :=
  if path.isEmpty then (default, none)
  else
    match files.read path with
    | .error f => (default, some (.wrapped (utf8 "read config") f))
    | .ok content => overlayFile decode default content

/-- The settings from defaults, file and environment. With a fault, they are what had been set
until then. -/
def load (decode : Assignment.Decoder) (files : Files) (env : Environment) (path : Bytes) :
    Settings × Option Fault :=
  match ofFile decode files path with
  | (s, some f) => (s, some f)
  | (s, none) =>
    match s.applyEnvironment env with
    | (s, some f) => (s, some f)
    | (s, none) => (s, s.check)

end Reckoner.Settings
