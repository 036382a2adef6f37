import Reckoner.Fault
import Reckoner.Path

/-!
# Reckoner.Files — what a command sees of the file system

Commands read files, list a folder and ask whether a file can be written. They get these as
functions, so that a command is a function of its input. A `Folder` is such a view that holds its
files itself.
-/

namespace Reckoner

/-- A view of the file system. -/
structure Files where
  /-- The contents of a file. -/
  read : Bytes → Except Fault Bytes
  /-- The names in a folder in order, and whether each one is a folder. -/
  list : Bytes → Except Fault (List (Bytes × Bool))
  /-- Can a file of this name be written? -/
  creatable : Bytes → Bool

/-- Why a path leads nowhere. -/
inductive PathTrouble where
  | missing
  | notFolder
  | isFolder
  | invalid
  | tooLong
  deriving DecidableEq, Repr

namespace PathTrouble

/-- The trouble in words. -/
def message : PathTrouble → Bytes
  | missing => utf8 "no such file or directory"
  | notFolder => utf8 "not a directory"
  | isFolder => utf8 "is a directory"
  | invalid => utf8 "invalid argument"
  | tooLong => utf8 "file name too long"

/-- The fault of doing something with a path. -/
def fault (t : PathTrouble) (doing : String) (path : Bytes) : Fault :=
  .plain (utf8 doing ++ byte ' ' :: path ++ utf8 ": " ++ t.message)

end PathTrouble

/-- What a path leads to. -/
inductive Place where
  | file (content : Bytes)
  | folder

/-- A folder with all that is in it. -/
structure Folder where
  /-- The absolute path of the folder; relative paths start here. -/
  home : Bytes
  /-- Files and folders by their segments; those on the way to them need not be listed. -/
  entries : List (List Bytes × Place)

namespace Folder

/-- What stands at these segments. -/
def at? (f : Folder) (segments : List Bytes) : Option Place :=
  match f.entries.lookup segments with
  | some place => some place
  | none => if segments.isEmpty || f.entries.any (fun e => segments.isPrefixOf e.1) then some .folder
    else none

/-- Walks along segments from a place; gives the segments of the end. -/
def walk (f : Folder) (here : List Bytes) : List Bytes → Except PathTrouble (List Bytes)
  | [] => .ok here
  | segment :: rest =>
    match f.at? here with
    | some .folder =>
      if segment = [] ∨ segment = utf8 "." then walk f here rest
      else if segment = utf8 ".." then
        if here.isEmpty then .error .missing else walk f here.dropLast rest
      else if 255 < segment.length then .error .tooLong
      else
        let next := here ++ [segment]
        match f.at? next with
        | some _ => walk f next rest
        | none => .error .missing
    | some (.file _) => .error .notFolder
    | none => .error .missing

/-- The segments of a path seen from the folder. -/
def localSegments? (f : Folder) (path : Bytes) : Except PathTrouble (List Bytes) :=
  if path.isEmpty then .error .missing
  else if path.contains 0 then .error .invalid
  else if !Path.isAbsolute path then .ok (Path.segments path)
  else if path = f.home then .ok []
  else if (f.home ++ [Path.slash]).isPrefixOf path then
    .ok (Path.segments (path.drop (f.home.length + 1)))
  else .error .missing

/-- What a path leads to. -/
def find (f : Folder) (path : Bytes) : Except PathTrouble Place := do
  let segments ← f.localSegments? path
  let end_ ← f.walk [] segments
  match f.at? end_ with
  | some place => pure place
  | none => .error .missing

/-- The names right inside a folder. -/
def names (f : Folder) (segments : List Bytes) : List (Bytes × Bool) :=
  let found := f.entries.filterMap fun e =>
    if segments.isPrefixOf e.1 then (e.1.drop segments.length).head? else none
  let sorted := found.eraseDups.mergeSort (fun a b => a ≤ b)
  sorted.map fun name =>
    (name, match f.at? (segments ++ [name]) with
      | some .folder => true
      | _ => false)

/-- The folder as a view of the file system. -/
def files (f : Folder) : Files where
  read path :=
    match f.find path with
    | .ok (.file content) => .ok content
    | .ok .folder => .error (PathTrouble.isFolder.fault "read" path)
    | .error t => .error (t.fault "open" path)
  list path :=
    match f.find path with
    | .ok .folder =>
      match f.localSegments? path with
      | .ok segments =>
        match f.walk [] segments with
        | .ok segments => .ok (f.names segments)
        | .error t => .error (t.fault "open" path)
      | .error t => .error (t.fault "open" path)
    | .ok (.file _) => .error (PathTrouble.notFolder.fault "open" path)
    | .error t => .error (t.fault "open" path)
  creatable path :=
    match f.localSegments? path with
    | .error _ => false
    | .ok segments =>
      match segments.getLast? with
      | none => false
      | some name =>
        match f.walk [] segments.dropLast with
        | .error _ => false
        | .ok parent =>
          match f.at? parent with
          | some .folder =>
            !(name.isEmpty || name = utf8 "." || name = utf8 ".." || 255 < name.length)
              && (match f.at? (parent ++ [name]) with
                | some .folder => false
                | _ => true)
          | _ => false

end Folder

end Reckoner
