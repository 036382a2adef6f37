import Reckoner.Command
import Reckoner.Command.Flags
import Reckoner.Prompt
import Reckoner.Settings.Load
import Reckoner.Suite.Load
import Reckoner.Text.Control

/-!
# Reckoner.Command.Run — the command line

Without a subcommand, a script is run or, without a script, a conversation is held. The
subcommands print the tokens of a script or its trees, check suites, and serve. A command is a
function from what surrounds it to a report. What others do for it belongs to that: decoding files,
serving, and telling about the commands themselves (`Support`).
-/

namespace Reckoner.Command

/-! ## Subcommands and their flags -/

/-- What is to be done. -/
inductive Subcommand where
  | run
  | tokens
  | ast
  | test
  | serve
  | help
  | completion
  /-- What shells ask while a command line is typed. -/
  | complete
  deriving DecidableEq

/-- Is the subcommand only about the commands themselves? -/
def Subcommand.isAbout : Subcommand → Bool
  | help | completion | complete => true
  | _ => false

/-- The subcommand of this name. -/
def Subcommand.ofName? (name : Bytes) : Option Subcommand :=
  if name = utf8 "tokens" then some tokens
  else if name = utf8 "ast" then some ast
  else if name = utf8 "test" then some test
  else if name = utf8 "serve" then some serve
  else if name = utf8 "help" then some help
  else if name = utf8 "completion" then some completion
  else if name = utf8 "__complete" then some complete
  else if name = utf8 "__completeNoDesc" then some complete
  else none

/-- The flags of all commands. -/
def sharedFlags : List Flag := [⟨"config", .text, none⟩, ⟨"trace", .switch, none⟩]

/-- The flags of serving. -/
def serveFlags : List Flag :=
  [⟨"port", .int, none⟩, ⟨"grpc-port", .int, none⟩, ⟨"host", .text, none⟩,
    ⟨"history-size", .int, none⟩, ⟨"scripts", .text, none⟩, ⟨"access-log", .switch, none⟩]

/-- The flags of a subcommand. -/
def Subcommand.flags : Subcommand → List Flag
  | run => ⟨"version", .switch, some 'v'⟩ :: ⟨"help", .switch, some 'h'⟩ :: sharedFlags
  | test => ⟨"verbose", .switch, some 'v'⟩ :: ⟨"help", .switch, some 'h'⟩ :: sharedFlags
  | serve => ⟨"help", .switch, some 'h'⟩ :: serveFlags ++ sharedFlags
  | _ => ⟨"help", .switch, some 'h'⟩ :: sharedFlags

/-- Does the argument look like a flag whose value is the next argument? Before the subcommand is
known, every flag that is not a shared switch does. -/
def expectsValue (arg : Bytes) : Bool :=
  !arg.contains (byte '=') &&
    if (utf8 "--").isPrefixOf arg then
      (findFlag? sharedFlags (arg.drop 2)).all (·.type ≠ .switch)
    else arg.head? = some (byte '-') && arg.length = 2

/-- The first argument that is no flag and no value of one; the last argument counts as a value. -/
def firstWord? : List Bytes → Option Bytes
  | [] => none
  | arg :: rest =>
    if arg = utf8 "--" then none
    else if expectsValue arg then
      match rest with
      | _ :: next :: more => firstWord? (next :: more)
      | _ => none
    else if arg ≠ [] ∧ arg.head? ≠ some (byte '-') then some arg
    else firstWord? rest

/-- The arguments without the first one that is this word. -/
def withoutWord (word : Bytes) : List Bytes → List Bytes
  | [] => []
  | arg :: rest =>
    if arg = utf8 "--" then arg :: rest
    else if expectsValue arg then
      match rest with
      | value :: more => arg :: value :: withoutWord word more
      | [] => [arg]
    else if arg = word then rest
    else arg :: withoutWord word rest

/-- The subcommand of a command line and the arguments that are left for it. -/
def subcommandOf (args : List Bytes) : Subcommand × List Bytes :=
  match firstWord? args with
  | none => (.run, args)
  | some word =>
    match Subcommand.ofName? word with
    | none => (.run, args)
    | some s => (s, withoutWord word args)

/-! ## What a command finds around it -/

/-- What others do for a command. -/
structure Support where
  decodeSettings : Settings.Assignment.Decoder
  decodeSuite : Suite.Decoder
  /-- Serves with these settings until it is stopped. -/
  serve : Settings → Arguments → Report
  /-- Tells about a subcommand, or what a subcommand about commands tells, for these arguments. -/
  tell : Subcommand → List Bytes → Report

/-- What a command finds around it. -/
structure Surroundings extends Support where
  files : Files
  env : Environment
  /-- The home of the user. -/
  home : Option Bytes
  /-- The standard input. -/
  input : Bytes

/-! ## Settings -/

/-- The path of the file with the settings: the one named by a flag counts before the one of the
environment. -/
def settingsPath (env : Environment) (a : Arguments) : Bytes :=
  let flag := a.text "config"
  if flag.isEmpty then (env.value? (utf8 "GOLOX_CONFIG")).getD [] else flag

/-- The settings of a command; the trace switch overrides file and environment. -/
def settings (s : Surroundings) (a : Arguments) : Except Exit Settings :=
  match Settings.load s.decodeSettings s.files s.env (settingsPath s.env a) with
  | (_, some f) => .error ⟨usageCode, some f⟩
  | (settings, none) => .ok { settings with trace := (a.switch? "trace").getD settings.trace }

/-- The settings with the flags of serving over them; zero and the empty text count as not given. -/
def withServeFlags (s : Settings) (a : Arguments) : Settings where
  host := if (a.text "host").isEmpty then s.host else a.text "host"
  port := if a.int "port" = 0 then s.port else a.int "port"
  grpcPort := if a.int "grpc-port" = 0 then s.grpcPort else a.int "grpc-port"
  historySize := if a.int "history-size" = 0 then s.historySize else a.int "history-size"
  trace := s.trace
  prompt := s.prompt
  historyFile := s.historyFile

/-- The settings for serving, and how the command ends if they cannot be used. -/
def applyServeFlags (s : Settings) (a : Arguments) : Settings × Option Exit :=
  let s := withServeFlags s a
  (s, s.check.map fun f => ⟨usageCode, some f⟩)

/-! ## Scripts -/

/-- The source at a path; a dash is the standard input. -/
def readSource (s : Surroundings) (path : Bytes) : Except Exit Bytes :=
  if path = utf8 "-" then .ok s.input
  else
    match s.files.read path with
    | .ok source => .ok source
    | .error f => .error ⟨noInputCode, some (.wrapped (utf8 "cannot read " ++ path) f)⟩

/-- Runs a source and prints its values. -/
def runSource (trace : Bool) (source : Bytes) : Report :=
  let r := Session.runFully source
  let report : Report :=
    { out := r.printed, log := if trace then Session.traceRun source r else [] }
  match r.fault with
  | none => report
  | some f => report.exit ⟨exitCode f, some f⟩

/-- A token on a line of its own. -/
def tokenLine (t : Token) : Bytes :=
  Bytes.padLeft 4 (byte ' ') (Number.decimalInt t.line) ++ byte ' ' :: t.text ++ [Bytes.newline]

/-- Prints the tokens of a source. -/
def printTokens (trace : Bool) (source : Bytes) : Report :=
  let report : Report := { log := if trace then Session.traceTokens source else [] }
  match Token.scan source with
  | .error d => report.exit ⟨dataCode, some (.diagnostic d)⟩
  | .ok tokens => { report with out := tokens.flatMap tokenLine }

/-- Prints the trees of a source, also those next to faults. -/
def printTrees (trace : Bool) (source : Bytes) : Report :=
  let (trees, fault) := Session.parse source
  let report : Report :=
    { out := Bytes.lines (trees.map Tree.text)
      log := if trace then Session.traceParse source else [] }
  match fault with
  | none => report
  | some f => report.exit ⟨dataCode, some f⟩

/-- Does something with the source at a path. -/
def withSource (s : Surroundings) (path : Bytes) (use : Bytes → Report) : Report :=
  match readSource s path with
  | .error e => Report.exit {} e
  | .ok source => use source

/-! ## Suites -/

/-- The lines about a case. -/
def caseLines (verbose : Bool) (suite : Bytes) (r : CaseResult) : Bytes :=
  let title := suite ++ byte '/' :: r.name ++ [Bytes.newline]
  if r.passed then if verbose then utf8 "ok   " ++ title else []
  else utf8 "FAIL " ++ title
    ++ r.failures.flatMap fun f => utf8 "     " ++ f ++ [Bytes.newline]

/-- Checks the suites at these paths; `out` and `log` hold what was written before. -/
def checkSuites (s : Surroundings) (trace verbose : Bool) (passed failed : Nat)
    (out log : List Bytes) : List Bytes → Report
  | [] =>
    let summary := Number.decimal passed ++ utf8 " passed, " ++ Number.decimal failed
      ++ utf8 " failed\n"
    let report : Report := { out := (summary :: out).reverse.flatten, log := log.reverse.flatten }
    if 0 < failed then report.exit ⟨1, none⟩ else report
  | path :: rest =>
    match Suite.load s.decodeSuite s.files path with
    | .error f =>
      Report.exit { out := out.reverse.flatten, log := log.reverse.flatten } ⟨dataCode, some f⟩
    | .ok suite =>
      let r := suite.check .endless
      checkSuites s trace verbose (passed + r.passed) (failed + r.failed)
        (r.results.flatMap (caseLines verbose r.suite) :: out)
        ((if trace then suite.cases.flatMap (Case.trace .endless) else []) :: log) rest

/-! ## The prompt -/

/-- The version of the program. -/
def version : Bytes := utf8 "dev"

/-- Where the lines of the prompt are kept: a relative name is inside the home of the user. The
empty path keeps them nowhere. -/
def historyPath (home : Option Bytes) (name : Bytes) : Bytes :=
  if name.isEmpty || Path.isAbsolute name then name
  else
    match home with
    | none => []
    | some [] => []
    | some home => Path.inside home name

/-- Can this prompt be shown? -/
def isShowable (prompt : Bytes) : Bool := (Utf8.chars prompt).all fun c => !Text.isControl c

/-- Holds a conversation on the standard input. -/
def runPrompt (s : Surroundings) (settings : Settings) : Report :=
  let path := historyPath s.home settings.historyFile
  let before := match s.files.read path with
    | .ok file => Prompt.readHistory file
    | .error _ => []
  let showable := isShowable settings.prompt
  let lines := if showable then Prompt.linesOf s.input else []
  let ending := if showable then .over else .fault (.plain (utf8 "invalid prompt"))
  let t := Prompt.converse .endless lines ending
  let written :=
    if !path.isEmpty && s.files.creatable path then
      [(path, Prompt.historyText (Prompt.remember before t.history))]
    else []
  let report : Report :=
    { out := utf8 "golox " ++ version ++ utf8 ". Type :quit to exit.\n" ++ t.out
      err := t.err
      log := if settings.trace then t.log else []
      written }
  match t.fault with
  | none => report
  | some f => report.fail f.message

/-! ## Whole command lines -/

/-- Does what a subcommand is for, once its arguments are known to be right. -/
def perform (s : Surroundings) (a : Arguments) (settings : Settings) : Subcommand → Report
  | .run =>
    match a.words with
    | [] => runPrompt s settings
    | path :: _ => withSource s path (runSource settings.trace)
  | .tokens => withSource s (a.words.headD []) (printTokens settings.trace)
  | .ast => withSource s (a.words.headD []) (printTrees settings.trace)
  | .test => checkSuites s settings.trace (a.isOn "verbose") 0 0 [] [] a.words
  | .serve =>
    match applyServeFlags settings a with
    | (_, some e) => Report.exit {} e
    | (settings, none) => s.serve settings a
  | command => s.tell command a.words

/-- What is wrong with the number of arguments. -/
def wrongWords (words : List Bytes) : Subcommand → Option Report
  | .run =>
    if 1 < words.length then
      some (Report.exit { err := utf8 "Usage: golox [script]\n" } ⟨usageCode, none⟩)
    else none
  | .tokens => exactlyOne
  | .ast => exactlyOne
  | .test =>
    if words.isEmpty then
      some (Report.fail {} (utf8 "requires at least 1 arg(s), only received 0"))
    else none
  | .serve =>
    match words with
    | [] => none
    | word :: _ =>
      some (Report.fail {}
        (utf8 "unknown command " ++ Text.quote word ++ utf8 " for \"golox serve\""))
  | _ => none
where
  /-- One argument is wanted. -/
  exactlyOne : Option Report :=
    if words.length = 1 then none
    else some (Report.fail {}
      (utf8 "accepts 1 arg(s), received " ++ Number.decimal words.length))

/-- Runs a command line. Flags are looked at first, then the number of arguments, then the
settings. -/
def execute (s : Surroundings) (args : List Bytes) : Report :=
  let (command, args) := subcommandOf args
  if command.isAbout then s.tell command args
  else
    match readArguments command.flags {} args with
    | .error t => Report.fail {} t.message
    | .ok a =>
      if a.isOn "help" then s.tell command args
      else if a.isOn "version" then
        { out := utf8 "golox version " ++ version ++ utf8 " (commit=unknown, built=unknown)\n" }
      else
        match wrongWords a.words command with
        | some report => report
        | none =>
          match settings s a with
          | .error e => Report.exit {} e
          | .ok settings => perform s a settings command

/-! ## What a command line looks at -/

/-- The flags and words of a command line that gets as far as its settings; none if it does not. -/
def argumentsOf? (args : List Bytes) : Option Arguments :=
  let (command, args) := subcommandOf args
  if command.isAbout then none
  else
    match readArguments command.flags {} args with
    | .error _ => none
    | .ok a =>
      if a.isOn "help" || a.isOn "version" || (wrongWords a.words command).isSome then none
      else some a

/-- The path of the file with the settings; empty if there is none. -/
def settingsPathOf (env : Environment) (args : List Bytes) : Bytes :=
  (argumentsOf? args).elim [] (settingsPath env)

/-- The arguments that may be names of files. -/
def wordsOf (args : List Bytes) : List Bytes := (argumentsOf? args).elim [] Arguments.words

/-- Is the standard input read? -/
def readsInput (args : List Bytes) : Bool :=
  match argumentsOf? args with
  | none => false
  | some a => (subcommandOf args).1 = .run && a.words.isEmpty || a.words.contains (utf8 "-")

end Reckoner.Command
