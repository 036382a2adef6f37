import Reckoner.Yaml.Meaning

/-!
# Reckoner.Yaml.Fields — mappings as records

A record is read from a mapping entry by entry. Keys that the record does not know are ignored,
but a mapping that repeats a key is not read at all. The merge key `<<` brings in the entries of
other mappings for the keys that are not there already.
-/

namespace Reckoner.Yaml

/-- An entry of a mapping, as a record sees it. -/
inductive Entry where
  | field (name : Bytes) (value : Node)
  | mismatch
  | fatal

namespace Node

/-- Are these two keys of a mapping counted as the same? Keys that are collections always are. -/
def sameKey : Node → Node → Bool
  | scalar _ s _, scalar _ t _ => s = t
  | sequence _, sequence _ => true
  | mapping _, mapping _ => true
  | reference s _, reference t _ => s = t
  | reference s _, selfReference t => s = t
  | selfReference s, reference t _ => s = t
  | selfReference s, selfReference t => s = t
  | _, _ => false

/-- Does a key occur twice? -/
def repeatsKey : List (Node × Node) → Bool
  | [] => false
  | (k, _) :: rest => rest.any (fun e => sameKey k e.1) || repeatsKey rest

/-- Is the node the key of entries to merge? -/
def isMergeKey : Node → Bool
  | scalar none text plain => plain && text = utf8 "<<"
  | scalar (some tag) text _ => tag = utf8 "!!merge" && text = utf8 "<<"
  | _ => false

/-- The entries of a mapping for a record with these fields, without the merged ones. Names in
`taken` are passed over, `set` are the fields that have occurred. -/
def ownEntries (known taken set : List Bytes) : List (Node × Node) → List Entry
  | [] => []
  | (k, v) :: rest =>
    if k.isMergeKey then ownEntries known taken set rest
    else
      match k.readText with
      | .absent => ownEntries known taken set rest
      | .mismatch => .mismatch :: ownEntries known taken set rest
      | .fatal => [.fatal]
      | .value name =>
        if !known.contains name || taken.contains name then ownEntries known taken set rest
        else if set.contains name then .mismatch :: ownEntries known taken set rest
        else .field name v :: ownEntries known taken (name :: set) rest

/-- The names of the fields among some entries. -/
def fieldNames (entries : List Entry) : List Bytes :=
  entries.filterMap fun
    | .field name _ => some name
    | _ => none

mutual

/-- The entries of a mapping that is merged into a record whose fields `taken` are set, and the
fields set then. -/
def mergedEntries (known taken : List Bytes) : Node → List Entry × List Bytes
  | mapping entries =>
    if repeatsKey entries then ([.mismatch], taken)
    else
      let own := ownEntries known taken [] entries
      let (more, taken) := inheritedEntries known (taken ++ fieldNames own) entries
      (own ++ more, taken)
  | reference _ n =>
    match n with
    | mapping entries =>
      if repeatsKey entries then ([.mismatch], taken)
      else
        let own := ownEntries known taken [] entries
        let (more, taken) := inheritedEntries known (taken ++ fieldNames own) entries
        (own ++ more, taken)
    | _ => ([.fatal], taken)
  | _ => ([.fatal], taken)

/-- The entries of several mappings, the first ones taking precedence. -/
def mergedFromEach (known taken : List Bytes) : List Node → List Entry × List Bytes
  | [] => ([], taken)
  | n :: rest =>
    let (first, taken) := mergedEntries known taken n
    let (more, taken) := mergedFromEach known taken rest
    (first ++ more, taken)

/-- The entries that a mapping gets by its merge key. -/
def inheritedEntries (known taken : List Bytes) : List (Node × Node) → List Entry × List Bytes
  | [] => ([], taken)
  | (k, v) :: rest =>
    if k.isMergeKey then
      match v with
      | sequence items => mergedFromEach known taken items
      | v => mergedEntries known taken v
    else inheritedEntries known taken rest

end

/-- The entries of a node for a record with these fields. Null has none. -/
def entries (known : List Bytes) (n : Node) : List Entry :=
  match n.target? with
  | some (mapping es) =>
    if repeatsKey es then [.mismatch]
    else
      let own := ownEntries known [] [] es
      own ++ (inheritedEntries known (fieldNames own) es).1
  | some (scalar tag text plain) =>
    match Meaning.ofScalar tag text plain with
    | some .null => []
    | some _ => [.mismatch]
    | none => [.fatal]
  | some _ => [.mismatch]
  | none => [.fatal]

end Node

/-- A record as far as it has been read. -/
structure Partial (α : Type) where
  record : α
  /-- Did something have the wrong type? -/
  mismatched : Bool := false
  /-- Did reading stop early? -/
  stopped : Bool := false

/-- Was everything read? -/
def Partial.complete {α : Type} (p : Partial α) : Bool := !p.mismatched && !p.stopped

/-- Reads the entries of a record in order; `put` stores a field. -/
def readEntries {α : Type} (put : α → Bytes → Node → Partial α) (p : Partial α) :
    List Entry → Partial α
  | [] => p
  | .fatal :: _ => { p with stopped := true }
  | .mismatch :: rest => readEntries put { p with mismatched := true } rest
  | .field name v :: rest =>
    let q := put p.record name v
    let q := { q with mismatched := p.mismatched || q.mismatched }
    if q.stopped then q else readEntries put q rest

/-- Stores what came of reading a field. -/
def Reading.store {α β : Type} (r : Reading β) (record : α) (set : β → α) : Partial α :=
  match r with
  | value b => { record := set b }
  | absent => { record }
  | mismatch => { record, mismatched := true }
  | fatal => { record, stopped := true }

/-- Reads a record with these fields from a node. -/
def Node.readRecord {α : Type} (known : List Bytes) (put : α → Bytes → Node → Partial α)
    (blank : α) (n : Node) : Partial α :=
  readEntries put { record := blank } (n.entries known)

end Reckoner.Yaml
