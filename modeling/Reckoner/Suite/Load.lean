import Reckoner.Files
import Reckoner.Suite
import Reckoner.Yaml.Fields

/-!
# Reckoner.Suite.Load — suites from files

A suite is written as a YAML mapping with a name and a list of cases. What a text describes is left
to a decoder; `Suite.ofYaml` is one. The suite that it finds is validated, and a suite without a name
gets the path of its file.
-/

namespace Reckoner.Suite

/-- Stores a field of an expected fault. -/
def putFault (e : ExpectedFault) (name : Bytes) (v : Yaml.Node) : Yaml.Partial ExpectedFault :=
  if name = utf8 "kind" then v.readText.store e fun s => { e with kind := .ofName s }
  else if name = utf8 "line" then v.readInt.store e fun n => { e with line := n }
  else v.readText.store e fun s => { e with message := s }

/-- Reads an expected fault. -/
def readFault (v : Yaml.Node) : Yaml.Partial ExpectedFault :=
  v.readRecord (["kind", "line", "message"].map utf8) putFault ⟨.ofName [], 0, []⟩

/-- Is the node null, which stands for nothing at all? -/
def isNull (v : Yaml.Node) : Bool :=
  match v.readText with
  | .absent => true
  | _ => false

/-- Stores a field of a case. -/
def putCase (c : Case) (name : Bytes) (v : Yaml.Node) : Yaml.Partial Case :=
  if name = utf8 "name" then v.readText.store c fun s => { c with name := s }
  else if name = utf8 "source" then v.readText.store c fun s => { c with source := s }
  else if name = utf8 "value" then v.readText.store c fun s => { c with value := some s }
  else if name = utf8 "tree" then v.readText.store c fun s => { c with tree := some s }
  else if isNull v then { record := c }
  else
    let p := readFault v
    { record := { c with fault := some p.record }, mismatched := p.mismatched, stopped := p.stopped }

/-- Reads a case. -/
def readCase (v : Yaml.Node) : Yaml.Partial Case :=
  v.readRecord (["name", "source", "value", "tree", "error"].map utf8) putCase
    ⟨[], [], none, none, none⟩

/-- Reads cases in order; null stands for no case. -/
def readCases (p : Yaml.Partial (List Case)) : List Yaml.Node → Yaml.Partial (List Case)
  | [] => { p with record := p.record.reverse }
  | v :: rest =>
    if isNull v then readCases p rest
    else
      let q := readCase v
      readCases
        { record := q.record :: p.record
          mismatched := p.mismatched || q.mismatched
          stopped := p.stopped || q.stopped }
        rest

/-- Stores a field of a suite. -/
def putSuite (s : Suite) (name : Bytes) (v : Yaml.Node) : Yaml.Partial Suite :=
  if name = utf8 "name" then v.readText.store s fun t => { s with name := t }
  else
    match v.target? with
    | some (.sequence items) =>
      let p := readCases { record := [] } items
      { record := { s with cases := p.record }, mismatched := p.mismatched, stopped := p.stopped }
    | _ => if isNull v then { record := s } else { record := s, mismatched := true }

/-- How a text is decoded: the suite that it describes, before it is validated, or what is wrong with
the text. -/
abbrev Decoder := Bytes → Except Bytes Suite

/-- The decoder for YAML. -/
def ofYaml : Decoder := fun text =>
  match Yaml.load text with
  | .error t => .error t.message
  | .ok none => .ok ⟨[], []⟩
  | .ok (some n) =>
    let p := n.readRecord (["name", "cases"].map utf8) putSuite ⟨[], []⟩
    if p.complete then .ok p.record else .error (utf8 "yaml: unmarshal errors")

/-- Reads a suite. -/
def parse (decode : Decoder) (text : Bytes) : Except Fault Suite :=
  if maxSize < text.length then
    .error (.plain (utf8 "suite size " ++ Number.decimal text.length ++ utf8 " exceeds maximum "
      ++ Number.decimal maxSize ++ utf8 " bytes"))
  else
    match decode text with
    | .error problem => .error (.wrapped (utf8 "invalid YAML") (.plain problem))
    | .ok s => s.validate

/-- Reads the suite in a file. -/
def load (decode : Decoder) (files : Files) (path : Bytes) : Except Fault Suite :=
  match files.read path with
  | .error f => .error (.wrapped (utf8 "read suite") f)
  | .ok text =>
    match parse decode text with
    | .error f => .error (.wrapped path f)
    | .ok s => .ok (if s.name.isEmpty then { s with name := path } else s)

end Reckoner.Suite
