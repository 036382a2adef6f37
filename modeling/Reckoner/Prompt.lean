import Reckoner.Session
import Reckoner.Text.Blank

/-!
# Reckoner.Prompt — a conversation line by line

Every line is a source of its own: its values are printed, and a fault is reported without ending
the conversation. Lines that start with a colon are commands, of which there is one, to quit. Blank
lines are passed over; all others are remembered.
-/

namespace Reckoner.Prompt

/-- What a line comes to. -/
structure Reply where
  out : Bytes := []
  err : Bytes := []
  /-- The trace of the run. -/
  log : Bytes := []
  /-- The line, if it is remembered. -/
  remembered : Option Bytes := none

/-- Does the line end the conversation? -/
def quits (line : Bytes) : Bool :=
  let command := Text.trim line
  command = utf8 ":quit" || command = utf8 ":exit"

/-- The answer to a command that does not exist. -/
def unknownCommand : Bytes := utf8 "unknown command. Type :quit to exit.\n"

/-- Answers a line that does not quit; gives the patience that is left as well. -/
def reply (patience : Patience) (line : Bytes) : Reply × Patience :=
  match Text.trim line with
  | [] => ({}, patience)
  | first :: _ =>
    if first = byte ':' then ({ err := unknownCommand, remembered := some line }, patience)
    else
      let (r, patience) := Session.run patience line
      ({ out := r.printed
         err := r.fault.elim [] fun f => f.message ++ [Bytes.newline]
         log := Session.traceRun line r
         remembered := some line },
        patience)

/-- Answers lines behind the replies in `done`, which are in reverse order. Gives the lines behind
the one that quits, if one does. -/
def replyOnto (done : List Reply) (patience : Patience) :
    List Bytes → List Reply × Option (List Bytes)
  | [] => (done.reverse, none)
  | line :: rest =>
    if quits line then (({ remembered := some line } :: done).reverse, some rest)
    else
      let (r, patience) := reply patience line
      replyOnto (r :: done) patience rest

/-- What comes behind the last line. -/
inductive Ending where
  /-- The input ends, or the user breaks off. -/
  | over
  | fault (f : Fault)

/-- A conversation. -/
structure Transcript where
  out : Bytes
  err : Bytes
  log : Bytes
  /-- The remembered lines in order. -/
  history : List Bytes
  /-- How often a line was asked for. -/
  asked : Nat
  /-- The lines that were not read. -/
  unread : List Bytes
  fault : Option Fault

/-- Holds a conversation. -/
def converse (patience : Patience) (lines : List Bytes) (ending : Ending) : Transcript :=
  let (replies, quit) := replyOnto [] patience lines
  { out := replies.flatMap Reply.out ++
      (match quit, ending with
        | none, .over => [Bytes.newline]
        | _, _ => [])
    err := replies.flatMap Reply.err
    log := replies.flatMap Reply.log
    history := replies.filterMap Reply.remembered
    asked := replies.length + (if quit.isSome then 0 else 1)
    unread := quit.getD []
    fault :=
      match quit, ending with
      | none, .fault f => some f
      | _, _ => none }

/-! ## Lines of a stream -/

/-- How much of a line is read at a time. -/
def bufferSize : Nat := 4096

/-- The line without a carriage return at its end; the line is in reverse order. -/
def lineOf : Bytes → Bytes
  | 13 :: before => before.reverse
  | line => line.reverse

/-- Cuts a stream into lines behind those in `done`. `line` holds the last `n` bytes in reverse
order. A line that does not fit into the buffer is cut, and the part in front is marked. -/
def linesOnto (done : List (Bytes × Bool)) (line : Bytes) (n : Nat) :
    Bytes → List (Bytes × Bool)
  | [] => if n = 0 then done.reverse else ((line.reverse, false) :: done).reverse
  | b :: rest =>
    if b = Bytes.newline then linesOnto ((lineOf line, false) :: done) [] 0 rest
    else if n + 1 < bufferSize then linesOnto done (b :: line) (n + 1) rest
    else if b = 13 then linesOnto ((line.reverse, true) :: done) [b] 1 rest
    else linesOnto (((b :: line).reverse, true) :: done) [] 0 rest

/-- The lines of a stream. -/
def linesOf (stream : Bytes) : List Bytes := (linesOnto [] [] 0 stream).map Prod.fst

/-! ## The remembered lines in a file -/

/-- How many lines are remembered. -/
def historyLimit : Nat := 1000

/-- The latest lines within the limit. -/
def latest (lines : List Bytes) : List Bytes := lines.drop (lines.length - historyLimit)

/-- The lines of a history file, up to the first one that is too long or no UTF-8. -/
def readHistory (file : Bytes) : List Bytes :=
  latest (((linesOnto [] [] 0 file).takeWhile fun l => !l.2 && Utf8.valid l.1).map Prod.fst)

/-- Lines with new ones behind them; a line that repeats the one before it is dropped. -/
def remember (lines : List Bytes) (new : List Bytes) : List Bytes :=
  latest (go lines.reverse new)
where
  /-- Adds lines in order to lines in reverse order. -/
  go (kept : List Bytes) : List Bytes → List Bytes
    | [] => kept.reverse
    | line :: rest => if kept.head? = some line then go kept rest else go (line :: kept) rest

/-- The text of a history file. -/
def historyText (lines : List Bytes) : Bytes := Bytes.lines lines

end Reckoner.Prompt
