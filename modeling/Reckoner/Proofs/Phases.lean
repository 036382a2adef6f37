import Reckoner.Proofs.Interruption
import Reckoner.Proofs.Messages
import Reckoner.Proofs.Turns

/-!
# Reckoner.Proofs.Phases — tokens, trees and values of one script

Three commands go into a script to different depths: one prints its tokens, one its trees and one
its values. Each of them chooses its code in its own way. Printing tokens or trees fails with a
fixed code, and running goes by the first diagnostic of its fault; but the fault of a source that
does not read is one of reading (`exitCode_of_parse`), and any other is an error of types
(`exitCode_of_typeError`). So the codes tell the phases apart, and what one command prints can be
told from another (`Coherent`).

That a very deep script may exhaust the call stack is outside the model.

Main statement: `execute_coherent`.
-/

namespace Reckoner

/-- Texts joined by newlines, with one more at the end, are lines. -/
theorem Bytes.join_newline {texts : List Bytes} (h : texts ≠ []) :
    Bytes.join [newline] texts ++ [newline] = Bytes.lines texts := by
  obtain ⟨first, more, rfl⟩ := List.exists_cons_of_ne_nil h
  rw [join, lines, List.flatMap_cons, List.append_assoc, List.append_assoc]
  congr 1
  clear h
  induction more with
  | nil => rfl
  | cons text more ih => simp only [List.flatMap_cons, List.append_assoc, ih]

namespace Session

/-! ## All trees, one after the other -/

/-- As much patience as there are trees is enough for all of them. -/
theorem evaluateAll_eq_upTo (cause : Interruption) {trees : List Tree} {n : Nat}
    (h : trees.length ≤ n) : evaluateAll trees = evaluateUpTo cause n trees := by
  induction trees generalizing n with
  | nil => rfl
  | cons t rest ih =>
    obtain ⟨n, rfl⟩ : ∃ k, n = k + 1 := ⟨n - 1, by rw [List.length_cons] at h; omega⟩
    rw [evaluateAll_cons]
    cases heval : t.eval with
    | error e => rw [evaluateUpTo_of_error cause rest heval]
    | ok v =>
      rw [evaluateUpTo_of_ok cause rest heval, ← ih (Nat.le_of_succ_le_succ h)]
      rfl

theorem firstFault_le (trees : List Tree) : firstFault trees ≤ trees.length :=
  List.findIdx_le_length

/-- The trees in front of the first one without a value have their outcomes. -/
theorem forall₂_evaluateAll (trees : List Tree) :
    List.Forall₂ Shows (trees.take (firstFault trees)) (evaluateAll trees).outcomes := by
  have hshown := forall₂_evaluateUpTo .canceled trees.length trees
  rwa [← evaluateAll_eq_upTo .canceled (Nat.le_refl _), Nat.min_eq_right (firstFault_le trees)]
    at hshown

/-- The fault is that of the first tree without a value. -/
theorem fault_evaluateAll (trees : List Tree) :
    (evaluateAll trees).fault = trees[firstFault trees]?.bind faultOf := by
  have hfault := fault_evaluateUpTo .canceled trees.length trees
  rwa [← evaluateAll_eq_upTo .canceled (Nat.le_refl _),
    if_neg fun h => absurd h.1 (Nat.lt_irrefl _)] at hfault

end Session

namespace Command

/-! ## Command lines about a source -/

/-- `Invokes s command source args`: the command line is read as this subcommand with one word, a
script that holds this source, and with settings that do not ask for a trace. -/
inductive Invokes (s : Surroundings) (command : Subcommand) (source : Bytes) : List Bytes → Prop
  | line {args rest : List Bytes} {a : Arguments} {path : Bytes} {settings : Settings}
      (subcommand : subcommandOf args = (command, rest))
      (read : readArguments command.flags {} rest = .ok a)
      (help : a.isOn "help" = false) (version : a.isOn "version" = false)
      (word : a.words = [path]) (script : readSource s path = .ok source)
      (loaded : Command.settings s a = .ok settings) (quiet : settings.trace = false) :
      Invokes s command source args

/-- What a subcommand about a source does with it if nothing is traced. -/
def Subcommand.use? : Subcommand → Option (Bytes → Report)
  | run => some (runSource false)
  | tokens => some (printTokens false)
  | ast => some (printTrees false)
  | _ => none

theorem Invokes.execute_eq {s : Surroundings} {command : Subcommand} {source : Bytes}
    {args : List Bytes} {use : Bytes → Report} (h : Invokes s command source args)
    (huse : command.use? = some use) : execute s args = use source := by
  obtain ⟨hsub, hread, hhelp, hversion, hword, hsource, hsettings, hquiet⟩ := h
  have hperform := fun hdoes hwords =>
    execute_eq_perform (s := s) hsub hdoes hread hhelp hversion hwords hsettings
  rw [hword] at hperform
  cases command with
  | run =>
    obtain rfl := Option.some.inj huse
    rw [hperform rfl rfl]
    simp only [perform, hword, withSource, hsource, hquiet]
  | tokens =>
    obtain rfl := Option.some.inj huse
    rw [hperform rfl rfl]
    simp only [perform, hword, List.headD_cons, withSource, hsource, hquiet]
  | ast =>
    obtain rfl := Option.some.inj huse
    rw [hperform rfl rfl]
    simp only [perform, hword, List.headD_cons, withSource, hsource, hquiet]
  | _ => cases huse

/-- The name of a subcommand in front of another argument is taken off. -/
theorem subcommandOf_pair {name : Bytes} {command : Subcommand}
    (h : Subcommand.ofName? name = some command) (path : Bytes) :
    subcommandOf [name, path] = (command, [path]) := by
  have hword : firstWord? [name, path] = some name ∧ withoutWord name [name, path] = [path] := by
    unfold Subcommand.ofName? at h
    repeat' split at h
    all_goals first | (subst name; exact ⟨rfl, rfl⟩) | cases h
  simp only [subcommandOf, hword, h]

/-- A script may be named alone, or behind the name of a subcommand. -/
theorem Scripted.invokes {s : Surroundings} {path source : Bytes} {settings : Settings}
    (h : Scripted s path source settings) (hquiet : settings.trace = false) :
    Invokes s .run source [path] ∧ Invokes s .tokens source [utf8 "tokens", path] ∧
      Invokes s .ast source [utf8 "ast", path] := by
  have hread := fun flags => readArguments_singleton flags h.word
  refine ⟨?_, ?_, ?_⟩
  · exact .line (subcommandOf_singleton h.name) (hread _) rfl rfl rfl h.source h.settings hquiet
  · exact .line (subcommandOf_pair rfl path) (hread _) rfl rfl rfl h.source h.settings hquiet
  · exact .line (subcommandOf_pair rfl path) (hread _) rfl rfl rfl h.source h.settings hquiet

/-! ## Codes -/

section
variable {source : Bytes}

/-- The fault of a source that does not read is one of reading. -/
theorem exitCode_of_parse {f : Fault} (h : (Session.parse source).2 = some f) :
    exitCode f = 65 := by
  have hreported := Session.run_reported .endless source
  rw [Session.run_of_fault h] at hreported
  cases hreported with
  | @scanning d hkind =>
    apply (exitCode_of_first? rfl).2.2
    rcases hkind with hkind | hkind <;> rw [hkind] <;> decide
  | @grammar ds hne hkinds =>
    obtain ⟨d, ds, rfl⟩ := List.exists_cons_of_ne_nil hne
    apply (exitCode_of_first? (d := d) rfl).2.2
    rcases hkinds d List.mem_cons_self with hkind | hkind <;> rw [hkind] <;> decide
  | @types d hkind =>
    -- a lone diagnostic is that of the scanner, which knows no types
    cases hscan : Token.scan source with
    | error d' =>
      simp only [Session.parse, hscan, Option.some.injEq, Fault.diagnostic.injEq] at h
      obtain hkind' | hkind' := Session.kind_of_scan hscan <;>
        rw [h, hkind] at hkind' <;> cases hkind'
    | ok tokens =>
      rw [Session.parse_of_scan hscan, Fault.join?] at h
      split at h <;> cases h
  | interruption hleft => exact absurd rfl hleft

/-- An error of types is found when a tree is evaluated. -/
theorem exitCode_of_typeError {d : Diagnostic} (h : d.kind = .typeError) :
    exitCode (.diagnostic d) = 70 := by
  obtain ⟨hcode, hstatic⟩ := exitCode_of_first? (f := .diagnostic d) rfl
  refine hcode.resolve_left fun heq => ?_
  rw [hstatic, h] at heq
  revert heq
  decide

/-! ## What is printed -/

/-- A source that cannot be cut into tokens is reported alike, however deep one wants to go. -/
theorem report_of_scan_error {d : Diagnostic} (h : Token.scan source = .error d) :
    let report : Report := { code := 65, err := d.message ++ [Bytes.newline] }
    runSource false source = report ∧ printTokens false source = report ∧
      printTrees false source = report := by
  have hparse : Session.parse source = ([], some (.diagnostic d)) := by simp only [Session.parse, h]
  have hfault : (Session.parse source).2 = some (.diagnostic d) := by rw [hparse]
  have hmessage : (Fault.diagnostic d).message = d.message := by rw [Fault.message]
  refine ⟨?_, ?_, ?_⟩
  · rw [runSource_eq, Session.runFully_of_fault hfault]
    simp only [Option.elim_some, exitCode_of_parse hfault, hmessage]
    rfl
  · simp only [printTokens, h, Report.exit, Option.elim_some, hmessage]
    rfl
  · simp only [printTrees, hparse, Report.exit, Option.elim_some, hmessage]
    rfl

theorem printTokens_of_scan {tokens : List Token} (h : Token.scan source = .ok tokens) :
    printTokens false source = { out := tokens.flatMap tokenLine } := by
  simp only [printTokens, h]
  rfl

/-- The trees that are found are printed, and all diagnostics in order. -/
theorem printTrees_of_scan {tokens : List Token} (h : Token.scan source = .ok tokens) :
    let found := Tree.parseProgram tokens
    printTrees false source =
      { code := if found.diagnostics = [] then 0 else 65
        out := Bytes.lines (found.trees.map Tree.text)
        err := Bytes.lines (found.diagnostics.map Diagnostic.message) } := by
  intro found
  have hparse : Session.parse source
      = (found.trees, Fault.join? (found.diagnostics.map .diagnostic)) := Session.parse_of_scan h
  simp only [printTrees, hparse]
  by_cases hnil : found.diagnostics = []
  · rw [hnil]
    rfl
  · have hlines := Bytes.join_newline (mt List.map_eq_nil_iff.1 hnil :
      found.diagnostics.map Diagnostic.message ≠ [])
    have hjoin : Fault.join? (found.diagnostics.map .diagnostic)
        = some (.joined (found.diagnostics.map .diagnostic)) := by
      rw [Fault.join?, if_neg (by simpa using hnil)]
    simp only [hjoin, Report.exit, Option.elim_some, Fault.message, Fault.messages_map, hlines,
      if_neg hnil]
    rfl

/-- How a source that reads ends: each of its trees has a value, or the first one that has none is
reported. -/
theorem runSource_ends (h : (Session.parse source).2 = none) :
    let trees := (Session.parse source).1
    let first := Session.firstFault trees
    let run := runSource false source
    first = trees.length ∧ run.code = 0 ∨
      first < trees.length ∧ run.code = 70 ∧ ∃ t e, trees[first]? = some t ∧ t.eval = .error e ∧
        run.err = e.fault.message ++ [Bytes.newline] := by
  intro trees first run
  have hrun : run = _ := runSource_eq false source
  have hfault : (Session.runFully source).fault = trees[first]?.bind Session.faultOf := by
    rw [Session.runFully_of_clean h, Session.fault_evaluateAll]
  rcases Nat.lt_or_ge first trees.length with hlt | hge
  · -- trees that were read are proper, so nothing but types can go wrong
    have hproper : ∀ t ∈ trees, t.Proper := by
      intro t ht
      obtain ⟨_, -, _, -, hderives⟩ := Session.exists_derives_of_mem_parse ht
      exact hderives.proper
    obtain ⟨t, e, d, hget, heval, hd, hkind⟩ := Session.exists_typeError hproper hlt
    have hcode : exitCode e.fault = 70 := by rw [hd, exitCode_of_typeError hkind]
    rw [hget, Option.bind_some, Session.faultOf, heval] at hfault
    rw [hrun, hfault]
    exact .inr ⟨hlt, hcode, t, e, hget, heval, rfl⟩
  · rw [List.getElem?_eq_none hge, Option.bind_none] at hfault
    rw [hrun, hfault]
    exact .inl ⟨Nat.le_antisymm (Session.firstFault_le trees) hge, rfl⟩

/-- The report shows these values of trees, from the first tree on: all of them if the command ends
well, and else those in front of a tree that has no value. -/
structure Report.ShowsValues (run : Report) (trees : List Tree) (values : List Value) : Prop where
  evaluated : List.Forall₂ (fun t v => t.eval = .ok v) (trees.take values.length) values
  printed : run.out = Bytes.lines (values.map Value.text)
  all : run.code = 0 ↔ values.length = trees.length
  failed : run.code ≠ 0 → run.code = 70 ∧ ∃ t e, trees[values.length]? = some t ∧
    t.eval = .error e ∧ run.err = e.fault.message ++ [Bytes.newline]

/-- A source that reads is run up to its first tree without a value. -/
theorem exists_showsValues (h : (Session.parse source).2 = none) :
    ∃ values, (runSource false source).ShowsValues (Session.parse source).1 values := by
  have hshown := Session.forall₂_evaluateAll (Session.parse source).1
  have hends := runSource_ends h
  rw [← Session.runFully_of_clean h] at hshown
  let values := (Session.runFully source).outcomes.map Outcome.value
  have hlength : values.length = Session.firstFault (Session.parse source).1 := by
    rw [List.length_map, ← hshown.length_eq, List.length_take,
      Nat.min_eq_left (Session.firstFault_le _)]
  simp only [← hlength] at hends
  refine ⟨values, ?_, ?_, ?_, ?_⟩
  · rw [hlength, List.forall₂_map_right_iff]
    exact hshown.imp fun _ _ hshows => hshows.1
  · rw [runSource_eq, List.map_map]
    rfl
  · obtain ⟨hall, hcode⟩ | ⟨hlt, hcode, -⟩ := hends
    · exact iff_of_true hcode hall
    · exact iff_of_false (by rw [hcode]; decide) (Nat.ne_of_lt hlt)
  · obtain ⟨-, hcode⟩ | ⟨-, hcode, hfailed⟩ := hends
    · exact fun hne => absurd hcode hne
    · exact fun _ => ⟨hcode, hfailed⟩

/-! ## Three commands about one script -/

/-- What the three commands about a script say fits together. -/
structure Coherent (source : Bytes) (run tokens ast : Report) : Prop where
  /-- 70 is left for a tree without a value. -/
  codes : run.code ∈ [0, 65, 70] ∧ tokens.code ∈ [0, 65] ∧ ast.code ∈ [0, 65]
  quiet : run.log = [] ∧ tokens.log = [] ∧ ast.log = []
  unread : run.code = 65 ↔ ast.code = 65
  unprinted : run.code = 65 → run.out = []
  unscanned : tokens.code = 65 → run.code = 65 ∧ ast.code = 65 ∧
    run.err = tokens.err ∧ ast.err = tokens.err ∧ run.out = [] ∧ tokens.out = [] ∧ ast.out = []
  /-- The values are those of the trees that are printed, from the first on. -/
  trees : ast.code = 0 → ∃ trees values, Session.parse source = (trees, none) ∧
    ast.out = Bytes.lines (trees.map Tree.text) ∧ ast.err = [] ∧ run.ShowsValues trees values
  /-- The cursor goes on behind each fault; all that it finds is printed, in order. -/
  recovered : tokens.code = 0 → ast.code = 65 → ∃ ts turns, Token.scan source = .ok ts ∧
    Descent.Turns ts 0 turns (Descent.endOf ts) ∧
    ast.out = Bytes.lines ((turns.filterMap Descent.Turn.tree?).map Tree.text) ∧
    ast.err = Bytes.lines ((Descent.slips turns).map fun slip => slip.diagnostic.message) ∧
    Descent.slips turns ≠ [] ∧ ((Descent.slips turns).map Descent.Slip.pos).Pairwise (· < ·) ∧
    ∀ slip ∈ Descent.slips turns, slip.Exact ts

theorem coherent_of_scan_error {d : Diagnostic} (h : Token.scan source = .error d) :
    Coherent source (runSource false source) (printTokens false source)
      (printTrees false source) := by
  obtain ⟨hrun, htokens, hast⟩ := report_of_scan_error h
  rw [hrun, htokens, hast]
  exact {
    codes := by simp
    quiet := ⟨rfl, rfl, rfl⟩
    unread := Iff.rfl
    unprinted := fun _ => rfl
    unscanned := fun _ => ⟨rfl, rfl, rfl, rfl, rfl, rfl, rfl⟩
    trees := fun hcode => absurd hcode (by simp)
    recovered := fun hcode => absurd hcode (by simp) }

theorem coherent_of_scan {tokens : List Token} (h : Token.scan source = .ok tokens) :
    Coherent source (runSource false source) (printTokens false source)
      (printTrees false source) := by
  obtain ⟨turns, hturns, hread⟩ :=
    Descent.exists_turns tokens 0 (Nat.zero_le _) (Descent.Faces.start tokens)
  have hfound : Tree.parseProgram tokens = Descent.found turns := by
    rw [Tree.parseProgram_eq, hread]
  have hparse := Session.parse_of_scan h
  have hast := printTrees_of_scan h
  rw [hfound] at hparse hast
  rw [printTokens_of_scan h, hast]
  -- what is printed is what the turns of the cursor find
  have hexact := hturns.exact (Nat.zero_le _)
  have hsorted := hturns.sorted (Nat.zero_le _)
  by_cases hslips : Descent.slips turns = []
  · have hnone : (Descent.found turns).diagnostics = [] := List.map_eq_nil_iff.2 hslips
    rw [hnone] at hparse ⊢
    have hclean : (Session.parse source).2 = none := congrArg Prod.snd hparse
    obtain ⟨values, hvalues⟩ := exists_showsValues hclean
    have hcodes : (runSource false source).code = 0 ∨ (runSource false source).code = 70 := by
      rw [or_iff_not_imp_left]
      exact fun hne => (hvalues.failed hne).1
    have hne : (runSource false source).code ≠ 65 := by
      rcases hcodes with h | h <;> rw [h] <;> decide
    exact {
      codes := ⟨by simpa using hcodes.imp_right .inr, by simp, by simp⟩
      quiet := ⟨by rw [runSource_eq]; rfl, rfl, rfl⟩
      unread := iff_of_false hne (by simp)
      unprinted := fun hcode => absurd hcode hne
      unscanned := fun hcode => absurd hcode (by simp)
      trees := fun _ => ⟨_, values, hparse, rfl, rfl, by rwa [hparse] at hvalues⟩
      recovered := fun _ hcode => absurd hcode (by simp) }
  · have hsome : (Descent.found turns).diagnostics ≠ [] := mt List.map_eq_nil_iff.1 hslips
    obtain ⟨f, hfault⟩ : ∃ f, (Session.parse source).2 = some f := by
      rw [hparse, Fault.join?, if_neg (by simpa using hsome)]
      exact ⟨_, rfl⟩
    rw [if_neg hsome, runSource_eq, Session.runFully_of_fault hfault]
    exact {
      codes := ⟨by simp [exitCode_of_parse hfault], by simp, by simp⟩
      quiet := ⟨rfl, rfl, rfl⟩
      unread := iff_of_true (exitCode_of_parse hfault) rfl
      unprinted := fun _ => rfl
      unscanned := fun hcode => absurd hcode (by simp)
      trees := fun hcode => absurd hcode (by simp)
      recovered := by
        refine fun _ _ => ⟨tokens, turns, h, hturns, rfl, ?_, hslips, hsorted, ?_⟩
        · rw [Descent.found, List.map_map]
          rfl
        · exact fun slip hslip => (hexact slip hslip).1 }

end

/-- **The three commands about a script fit together.** One prints the tokens of a script, one its
trees and one its values; a script may be named alone or behind the name of a subcommand, and no
command is asked for a trace. Running ends with 0, 65 or 70: with 65 just if printing trees does,
and then it prints nothing. If the script cannot be cut into tokens, all three say so in the same
words and print nothing. If the trees are printed without a fault, running prints the values of the
first of them, and of all just if it ends with 0. If there are tokens but not all of them read as
trees, the trees around the faults are printed, and all faults are told in order. -/
theorem execute_coherent (s : Surroundings) (source : Bytes) :
    (∀ path settings, Scripted s path source settings → settings.trace = false →
      Invokes s .run source [path] ∧ Invokes s .tokens source [utf8 "tokens", path] ∧
        Invokes s .ast source [utf8 "ast", path]) ∧
    ∀ line tokensLine astLine, Invokes s .run source line → Invokes s .tokens source tokensLine →
      Invokes s .ast source astLine →
      Coherent source (execute s line) (execute s tokensLine) (execute s astLine) := by
  refine ⟨fun path settings h hquiet => h.invokes hquiet, ?_⟩
  intro line tokensLine astLine hline htokens hast
  rw [hline.execute_eq rfl, htokens.execute_eq rfl, hast.execute_eq rfl]
  cases hscan : Token.scan source with
  | error d => exact coherent_of_scan_error hscan
  | ok tokens => exact coherent_of_scan hscan

/-- A script on the standard input with a fault between two trees; the trees are asked for with a
flag. -/
theorem execute_coherent_input :
    let source := utf8 "nil; )\n; !nil"
    let support : Support :=
      ⟨fun _ => ({}, none), fun _ => .error [], fun _ _ => {}, fun _ _ => {}⟩
    let s : Surroundings :=
      ⟨support, ⟨fun _ => .error (.plain []), fun _ => .error (.plain []), fun _ => false⟩, [], none,
        source⟩
    let astLine := [utf8 "--trace=false", utf8 "ast", utf8 "-"]
    (execute s astLine).code = 65 ∧ (execute s [utf8 "tokens", utf8 "-"]).code = 0 ∧
      (execute s astLine).out = utf8 "nil\n(! nil)\n" ∧
      Coherent source (execute s [utf8 "-"]) (execute s [utf8 "tokens", utf8 "-"])
        (execute s astLine) := by
  intro source support s astLine
  obtain ⟨hplain, hcoherent⟩ := execute_coherent s source
  have hscripted : Scripted s (utf8 "-") source .default := ⟨.inl rfl, by decide, rfl, rfl⟩
  obtain ⟨hrun, htokens, -⟩ := hplain _ _ hscripted rfl
  have hread : readArguments Subcommand.ast.flags {} [utf8 "--trace=false", utf8 "-"]
      = .ok ⟨[("trace", .switch false)], [utf8 "-"]⟩ := by
    unfold readArguments
    with_unfolding_all rfl
  have hast : Invokes s .ast source astLine :=
    .line rfl hread rfl rfl rfl rfl hscripted.settings rfl
  have htrees := hast.execute_eq rfl
  refine ⟨?_, ?_, ?_, hcoherent _ _ _ hrun htokens hast⟩
  · rw [htrees]
    with_unfolding_all rfl
  · rw [htokens.execute_eq rfl]
    with_unfolding_all rfl
  · rw [htrees]
    with_unfolding_all rfl

end Command

end Reckoner
