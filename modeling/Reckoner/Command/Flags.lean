import Reckoner.Number.Integer

/-!
# Reckoner.Command.Flags — flags on a command line

A flag is written `--name value` or `--name=value`, and a switch needs no value. Some flags have a
letter, and letters may be written together. Flags and other arguments may be mixed; after `--`
nothing is a flag. If a flag is given twice the last one counts.
-/

namespace Reckoner.Command

/-- What kind of value a flag takes. -/
inductive FlagType where
  | text
  | int
  | switch
  deriving DecidableEq

/-- A flag that a command knows. -/
structure Flag where
  name : String
  type : FlagType
  letter : Option Char := none

/-- A value of a flag. -/
inductive FlagValue where
  | text (s : Bytes)
  | int (n : Int)
  | switch (b : Bool)

/-- What is wrong with the flags of a command line. -/
inductive FlagTrouble where
  | badSyntax (arg : Bytes)
  | unknown (name : Bytes)
  | unknownLetter (letter : UInt8) (letters : Bytes)
  | missingValue (arg : Bytes)
  | missingLetterValue (letter : UInt8) (letters : Bytes)
  | badValue (value : Bytes) (flag : Flag) (reason : Bytes)
  /-- Help is asked for, but there is no flag for it. -/
  | helpWanted

/-- A flag as it is called in messages. -/
def Flag.title (f : Flag) : Bytes :=
  match f.letter with
  | some c => byte '-' :: Utf8.encode c ++ utf8 ", --" ++ utf8 f.name
  | none => utf8 "--" ++ utf8 f.name

/-- A byte as a quoted character. -/
def quotedByte (b : UInt8) : Bytes := Text.quoteChar (Char.ofNat b.toNat)

/-- The trouble in words. -/
def FlagTrouble.message : FlagTrouble → Bytes
  | badSyntax arg => utf8 "bad flag syntax: " ++ arg
  | unknown name => utf8 "unknown flag: --" ++ name
  | unknownLetter letter letters =>
    utf8 "unknown shorthand flag: " ++ quotedByte letter ++ utf8 " in -" ++ letters
  | missingValue arg => utf8 "flag needs an argument: " ++ arg
  | missingLetterValue letter letters =>
    utf8 "flag needs an argument: " ++ quotedByte letter ++ utf8 " in -" ++ letters
  | badValue value flag reason =>
    utf8 "invalid argument " ++ Text.quote value ++ utf8 " for " ++ Text.quote flag.title
      ++ utf8 " flag: " ++ reason
  | helpWanted => utf8 "pflag: help requested"

/-- Reads the value of a flag. -/
def Flag.read (f : Flag) (value : Bytes) : Except FlagTrouble FlagValue :=
  match f.type with
  | .text => .ok (.text value)
  | .int =>
    match Number.readAnyInt value with
    | .ok n => .ok (.int n)
    | .error r => .error (.badValue value f (r.message "ParseInt" value))
  | .switch =>
    match Number.readSwitch value with
    | .ok b => .ok (.switch b)
    | .error r => .error (.badValue value f (r.message "ParseBool" value))

/-- A command line that has been read. -/
structure Arguments where
  /-- The flags that were given, the last one first. -/
  given : List (String × FlagValue) := []
  /-- The other arguments. -/
  words : List Bytes := []

namespace Arguments

/-- The text of a flag, empty if it was not given. -/
def text (a : Arguments) (name : String) : Bytes :=
  match a.given.lookup name with
  | some (.text s) => s
  | _ => []

/-- The number of a flag, zero if it was not given. -/
def int (a : Arguments) (name : String) : Int :=
  match a.given.lookup name with
  | some (.int n) => n
  | _ => 0

/-- The state of a switch, if it was given. -/
def switch? (a : Arguments) (name : String) : Option Bool :=
  match a.given.lookup name with
  | some (.switch b) => some b
  | _ => none

/-- Is a switch on? -/
def isOn (a : Arguments) (name : String) : Bool := (a.switch? name).getD false

/-- Stores the value of a flag. -/
def put (a : Arguments) (f : Flag) (value : Bytes) : Except FlagTrouble Arguments := do
  let v ← f.read value
  pure { a with given := (f.name, v) :: a.given }

end Arguments

/-- The flag of this name. -/
def findFlag? (flags : List Flag) (name : Bytes) : Option Flag :=
  flags.find? (utf8 ·.name = name)

/-- The flag with this letter. -/
def findLetter? (flags : List Flag) (letter : UInt8) : Option Flag :=
  flags.find? fun f => f.letter.any (byte · = letter)

/-- Reads letters written together; `next` is the argument behind them. Says whether the next
argument was taken as a value. -/
def readLetters (flags : List Flag) (a : Arguments) (next : Option Bytes) :
    Bytes → Except FlagTrouble (Arguments × Bool)
  | [] => .ok (a, false)
  | letter :: rest =>
    if (utf8 "test.").isPrefixOf (letter :: rest) then .ok (a, false)
    else
      match findLetter? flags letter with
      | none =>
        .error (if letter = byte 'h' then .helpWanted else .unknownLetter letter (letter :: rest))
      | some f =>
        match rest with
        | 61 :: value :: more => do pure (← a.put f (value :: more), false)
        | _ =>
          if f.type = .switch then do
            let a ← a.put f (utf8 "true")
            readLetters flags a next rest
          else if !rest.isEmpty then do pure (← a.put f rest, false)
          else
            match next with
            | some value => do pure (← a.put f value, true)
            | none => .error (.missingLetterValue letter (letter :: rest))

/-- Reads a command line. -/
def readArguments (flags : List Flag) (a : Arguments) : List Bytes → Except FlagTrouble Arguments
  | [] => .ok { a with words := a.words.reverse }
  | arg :: rest =>
    match arg with
    | 45 :: 45 :: body =>
      if body.isEmpty then .ok { a with words := a.words.reverse ++ rest }
      else if body.head? = some 45 || body.head? = some 61 then .error (.badSyntax arg)
      else
        let name := body.takeWhile (· ≠ 61)
        match findFlag? flags name with
        | none => .error (if name = utf8 "help" then .helpWanted else .unknown name)
        | some f =>
          if body.contains 61 then do
            let a ← a.put f (body.drop (name.length + 1))
            readArguments flags a rest
          else if f.type = .switch then do
            let a ← a.put f (utf8 "true")
            readArguments flags a rest
          else
            match rest with
            | value :: rest => do
              let a ← a.put f value
              readArguments flags a rest
            | [] => .error (.missingValue arg)
    | 45 :: letter :: letters => do
      let (a, taken) ← readLetters flags a rest.head? (letter :: letters)
      match rest with
      | [] => .ok { a with words := a.words.reverse }
      | value :: more =>
        if taken then readArguments flags a more else readArguments flags a (value :: more)
    | _ => readArguments flags { a with words := arg :: a.words } rest

end Reckoner.Command
