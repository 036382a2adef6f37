import Reckoner.Command.Run

/-!
# Reckoner.Main — the program

The outer layer of the command line: it collects the arguments, the environment, the files that the
arguments name and the standard input, runs the command, and writes what the command reports.
-/

namespace Reckoner.Main

/-- The bytes of a text. -/
def bytes (b : ByteArray) : Bytes := b.data.toList

/-- The text of some bytes; what is no UTF-8 names no file. -/
def string (b : Bytes) : String := (String.fromUTF8? ⟨b.toArray⟩).getD ""

/-- The variables that commands look at. -/
def variableNames : List String :=
  ["HOST", "PORT", "GRPC_PORT", "GOLOX_HISTORY_SIZE", "GOLOX_TRACE", "GOLOX_CONFIG"]

/-- Reads the environment. -/
def environment : IO Environment := do
  let found ← variableNames.filterMapM fun name => do
    let v ← IO.getEnv name
    pure (v.map fun v => (utf8 name, utf8 v))
  pure found

/-- Reads a file. -/
def readFile (path : Bytes) : IO (Except Fault Bytes) := do
  try
    pure (.ok (bytes (← IO.FS.readBinFile (string path))))
  catch e =>
    match e with
    | .noFileOrDirectory .. => pure (.error (PathTrouble.missing.fault "open" path))
    | .inappropriateType .. => pure (.error (PathTrouble.isFolder.fault "read" path))
    | e => pure (.error (.plain (utf8 "open " ++ path ++ utf8 ": " ++ utf8 (toString e))))

/-- Reads everything that is left of a stream. -/
partial def readAll (stream : IO.FS.Stream) (before : ByteArray) : IO ByteArray := do
  let chunk ← stream.read 65536
  if chunk.isEmpty then pure before else readAll stream (before ++ chunk)

/-- A view of some files that have been read. -/
def viewOf (read : List (Bytes × Except Fault Bytes)) : Files where
  read path := (read.lookup path).getD (.error (PathTrouble.missing.fault "open" path))
  list path := .error (PathTrouble.missing.fault "open" path)
  creatable _ := true

/-- Reads the files with these names. -/
def readFiles (paths : List Bytes) : IO Files := do
  let read ← paths.mapM fun path => do pure (path, ← readFile path)
  pure (viewOf read)

/-- Writes bytes. -/
def write (stream : IO.FS.Stream) (b : Bytes) : IO Unit := stream.write ⟨b.toArray⟩

/-- What is done without others: files are YAML, and there is no network and nothing to tell. -/
def support : Command.Support where
  decodeSettings := Settings.Assignment.ofYaml
  decodeSuite := Suite.ofYaml
  serve settings _ :=
    Command.Report.fail {} (utf8 "listen " ++ settings.address ++ utf8 ": no network")
  tell _ _ := {}

/-- Runs a command line. -/
def run (args : List Bytes) : IO UInt32 := do
  let env ← environment
  let home ← IO.getEnv "HOME"
  let home := home.map utf8
  let path := Command.settingsPathOf env args
  let (settings, _) := Settings.load support.decodeSettings (← readFiles [path]) env path
  let history := Command.historyPath home settings.historyFile
  let files ← readFiles (history :: path :: Command.wordsOf args)
  let input ← if Command.readsInput args then readAll (← IO.getStdin) ByteArray.empty
    else pure ByteArray.empty
  let report := Command.execute ⟨support, files, env, home, bytes input⟩ args
  write (← IO.getStdout) report.out
  write (← IO.getStderr) (report.log ++ report.err)
  for (path, content) in report.written do
    try IO.FS.writeBinFile (string path) ⟨content.toArray⟩
    catch _ => pure ()
  pure report.code.toNat.toUInt32

end Reckoner.Main

/-- The program. -/
def main (args : List String) : IO UInt32 := Reckoner.Main.run (args.map Reckoner.utf8)
