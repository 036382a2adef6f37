import Reckoner.Text.Bytes

/-!
# Reckoner.Path — names of files

A path is a text whose segments are divided by slashes. Cleaning a path removes empty segments,
`.` and the segments that `..` takes back.
-/

namespace Reckoner.Path

/-- The slash between segments. -/
abbrev slash : UInt8 := 47

/-- Does the path start at the root? -/
def isAbsolute (path : Bytes) : Bool := path.head? = some slash

/-- The segments of a path. -/
def segments (path : Bytes) : List Bytes := Bytes.splitAt slash path

/-- Adds a segment to the segments of a clean path, which are in reverse order. -/
def push (rooted : Bool) (kept : List Bytes) (segment : Bytes) : List Bytes :=
  if segment = [] ∨ segment = utf8 "." then kept
  else if segment = utf8 ".." then
    match kept with
    | [] => if rooted then [] else [segment]
    | last :: before => if last = utf8 ".." then segment :: kept else before
  else segment :: kept

/-- The shortest path to the same place. -/
def clean (path : Bytes) : Bytes :=
  let rooted := isAbsolute path
  let kept := (segments path).foldl (push rooted) []
  let joined := Bytes.join [slash] kept.reverse
  if rooted then slash :: joined
  else if joined.isEmpty then utf8 "."
  else joined

/-- A path inside a folder. -/
def inside (folder path : Bytes) : Bytes :=
  if folder.isEmpty then if path.isEmpty then [] else clean path
  else if path.isEmpty then clean folder
  else clean (folder ++ slash :: path)

/-- What stands behind the last point of a file's name, with the point; nothing without one. -/
def extension (name : Bytes) : Bytes :=
  let tail := name.reverse.takeWhile fun b => b ≠ byte '.' && b ≠ slash
  if (name.reverse.drop tail.length).head? = some (byte '.') then byte '.' :: tail.reverse else []

end Reckoner.Path
