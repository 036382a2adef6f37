import Reckoner.Proofs.Gaps
import Reckoner.Proofs.Newline
import Reckoner.Proofs.Recovery

/-!
# Reckoner.Proofs.Joining — sources one below the other

A source that reads without a fault and ends with a semicolon can be put in front of any other, with
a newline between them. The tokens of both stand one behind the other (`scan_newline`), the
semicolon keeps their trees apart (`parseProgram_ended`), and the trees are evaluated in order
(`evaluateAll_append`). What comes from the second source is further down by the lines of the first,
and shows so in its diagnostics only.

Main statement: `runFully_newline`.
-/

namespace Reckoner

namespace Tree

/-- Tokens that end with a semicolon, or none at all, are read in front of others as they are read
in front of an end mark. -/
theorem parseProgram_ended {tokens rest : List Token} {mark : Token}
    (hends : ∀ t ∈ tokens, t.isEnd = false) (hlast : ∀ t ∈ tokens.getLast?, t.kind = .semicolon)
    (hmark : mark.isEnd = true) (hrest : rest ≠ []) :
    parseProgram (tokens ++ rest) = parseProgram (tokens ++ [mark]) ++ parseProgram rest := by
  rcases List.eq_nil_or_concat tokens with rfl | ⟨front, semicolon, rfl⟩
  · have hnone : parseProgram ([] ++ [mark]) = .empty := by
      rw [parseProgram_eq, List.nil_append, readProgram_end hmark]
    rw [hnone, List.nil_append, Program.empty_append]
  · rw [List.concat_eq_append] at hends hlast ⊢
    have hsemi : semicolon.kind = .semicolon := hlast semicolon (by simp)
    have hfront : ∀ t ∈ front, t.isEnd = false := fun t ht => hends t (by simp [ht])
    obtain ⟨found, hfound⟩ := readProgram_semicolon hsemi hfront
    have halone : parseProgram (front ++ [semicolon] ++ [mark]) = found := by
      rw [parseProgram_eq, List.append_assoc, List.singleton_append, hfound, readProgram_end hmark,
        Program.append_empty]
    rw [halone, parseProgram_eq, parseProgram_eq, endLineOf_append hrest, List.append_assoc,
      List.singleton_append, hfound]

end Tree

/-- One run and then another, which is not begun if there is a fault in the first. -/
def Run.andThen (r s : Run) : Run :=
  match r.fault with
  | some _ => r
  | none => ⟨r.outcomes ++ s.outcomes, s.fault⟩

theorem Run.andThen_assoc (r s u : Run) : (r.andThen s).andThen u = r.andThen (s.andThen u) := by
  obtain ⟨outcomes, fault⟩ := r
  obtain ⟨outcomes', fault'⟩ := s
  cases fault <;> cases fault' <;> simp [Run.andThen]

namespace Session

/-! ## Evaluating trees one behind the other -/

/-- Outcomes that are there already stand in front. -/
theorem evaluateOnto_eq (done : List Outcome) (patience : Patience) (trees : List Tree) :
    evaluateOnto done patience trees
      = (⟨done.reverse ++ (evaluateOnto [] patience trees).1.outcomes,
            (evaluateOnto [] patience trees).1.fault⟩,
          (evaluateOnto [] patience trees).2) := by
  induction trees generalizing done patience with
  | nil => simp [evaluateOnto]
  | cons t rest ih =>
    simp only [evaluateOnto]
    rcases patience.ask with ⟨_ | cause, patience⟩
    · cases t.eval with
      | error e => simp
      | ok v =>
        simp only
        rw [ih (⟨t.text, v⟩ :: done), ih [⟨t.text, v⟩]]
        simp
    · simp

/-- The run of trees for a caller that never interrupts. -/
def evaluateAll (trees : List Tree) : Run := (evaluateOnto [] .endless trees).1

/-- A tree is evaluated before those behind it. -/
theorem evaluateAll_cons (t : Tree) (rest : List Tree) :
    evaluateAll (t :: rest) = match t.eval with
      | .error e => ⟨[], some e.fault⟩
      | .ok v => (⟨[⟨t.text, v⟩], none⟩ : Run).andThen (evaluateAll rest) := by
  have hask : Patience.endless.ask = (none, .endless) := rfl
  simp only [evaluateAll, evaluateOnto, hask]
  cases t.eval with
  | error e => rfl
  | ok v =>
    simp only
    rw [evaluateOnto_eq]
    rfl

/-- The trees of two lists are evaluated one list after the other. -/
theorem evaluateAll_append (trees more : List Tree) :
    evaluateAll (trees ++ more) = (evaluateAll trees).andThen (evaluateAll more) := by
  induction trees with
  | nil => rfl
  | cons t trees ih =>
    rw [List.cons_append, evaluateAll_cons, evaluateAll_cons]
    cases t.eval with
    | error e => rfl
    | ok v =>
      simp only
      rw [ih, Run.andThen_assoc]

theorem evaluateAll_reline (f : Int → Int) (trees : List Tree) :
    evaluateAll (trees.map (Tree.reline f)) = (evaluateAll trees).reline f := by
  rw [evaluateAll, evaluateOnto_reline]
  rfl

theorem run_of_fault {source : Bytes} {fault : Fault} (h : (parse source).2 = some fault)
    (patience : Patience) : run patience source = (⟨[], some fault⟩, patience) := by
  rcases hparse : parse source with ⟨trees, fault'⟩
  rw [hparse] at h
  cases h
  simp only [run, hparse]

theorem run_of_clean {source : Bytes} (h : (parse source).2 = none) (patience : Patience) :
    run patience source = evaluateOnto [] patience (parse source).1 := by
  rcases hparse : parse source with ⟨trees, fault⟩
  rw [hparse] at h
  cases h
  simp only [run, hparse]

theorem runFully_of_fault {source : Bytes} {fault : Fault} (h : (parse source).2 = some fault) :
    runFully source = ⟨[], some fault⟩ := by
  rw [runFully, run_of_fault h]

theorem runFully_of_clean {source : Bytes} (h : (parse source).2 = none) :
    runFully source = evaluateAll (parse source).1 := by
  rw [runFully, run_of_clean h, evaluateAll]

/-! ## Reading sources one below the other -/

theorem parse_of_scan {source : Bytes} {tokens : List Token} (h : Token.scan source = .ok tokens) :
    parse source = ((Tree.parseProgram tokens).trees,
      Fault.join? ((Tree.parseProgram tokens).diagnostics.map .diagnostic)) := by
  simp only [parse, h]

/-- Does the last token of the source end an item? There may be no token at all. -/
def Ended (source : Bytes) : Prop :=
  ∃ tokens line, Token.scan source = .ok (tokens ++ [Token.endMark line]) ∧
    ∀ t ∈ tokens.getLast?, t.kind = .semicolon

/-- The faults below an ended source without faults are those of the second source, further down;
and where there are none, the trees of both are found. -/
theorem parse_newline {source : Bytes} (hparse : (parse source).2 = none) (hended : Ended source)
    (more : Bytes) :
    let f : Int → Int := (· + (1 + Bytes.newlines source : Nat))
    (parse (source ++ Bytes.newline :: more)).2 = (parse more).2.map (Fault.reline f) ∧
    ((parse more).2 = none → (parse (source ++ Bytes.newline :: more)).1
      = (parse source).1 ++ (parse more).1.map (Tree.reline f)) := by
  intro f
  obtain ⟨tokens, line, hscan, hlast⟩ := hended
  obtain ⟨tokens', hreached, heq⟩ := Token.scan_eq_ok_iff.1 hscan
  obtain ⟨rfl, -⟩ := List.append_inj' heq rfl
  have hjoined : Token.scan (source ++ Bytes.newline :: more)
      = Token.continued tokens f (Token.scan more) := Token.scan_newline hreached more
  cases hmore : Token.scan more with
  | error d =>
    rw [hmore, Token.continued] at hjoined
    have hfault : (parse more).2 = some (.diagnostic d) := by simp only [parse, hmore]
    refine ⟨?_, fun hnone => ?_⟩
    · rw [hfault]
      simp only [parse, hjoined, Option.map_some, Fault.reline]
    · cases hfault.symm.trans hnone
  | ok behind =>
    rw [hmore, Token.continued] at hjoined
    have hbehind : behind ≠ [] := by
      obtain ⟨_, -, rfl⟩ := Token.scan_eq_ok_iff.1 hmore
      simp
    have hends : ∀ t ∈ tokens, t.isEnd = false := by
      intro t ht
      simpa [Token.isEnd] using hreached.kind_ne_eof t ht
    -- the tokens of both, read apart
    have hfound : Tree.parseProgram (tokens ++ behind.map (Token.reline f))
        = Tree.parseProgram (tokens ++ [Token.endMark line])
          ++ Tree.parseProgram (behind.map (Token.reline f)) :=
      Tree.parseProgram_ended hends hlast rfl (by simpa using hbehind)
    rw [Tree.parseProgram_reline f hbehind] at hfound
    rw [parse_of_scan hscan] at hparse ⊢
    rw [parse_of_scan hjoined, parse_of_scan hmore, hfound, Tree.Program.append_def]
    have hclean : (Tree.parseProgram (tokens ++ [Token.endMark line])).diagnostics = [] := by
      simpa [Fault.join?] using hparse
    refine ⟨?_, fun _ => rfl⟩
    rw [hclean, List.nil_append]
    exact Fault.join?_reline f _

/-- **Sources one below the other run one after the other.** The first source reads without a fault
and ends with a semicolon or holds no token. If the second does not read, its faults are reported at
their lines in the whole, and nothing is evaluated. Otherwise a fault of the first source ends the
run; and without one its outcomes are followed by the outcomes of the second source, and by the
fault of that at its line in the whole. -/
theorem runFully_newline {source more : Bytes} (hparse : (parse source).2 = none)
    (hended : Ended source) :
    let f : Int → Int := (· + (1 + Bytes.newlines source : Nat))
    let whole := runFully (source ++ Bytes.newline :: more)
    (∀ fault, (parse more).2 = some fault → whole = ⟨[], some (fault.reline f)⟩) ∧
    ((parse more).2 = none →
      (∀ fault, (runFully source).fault = some fault →
        whole = ⟨(runFully source).outcomes, some fault⟩) ∧
      ((runFully source).fault = none →
        whole = ⟨(runFully source).outcomes ++ (runFully more).outcomes,
          (runFully more).fault.map (Fault.reline f)⟩)) := by
  intro f whole
  obtain ⟨hfault, htrees⟩ := parse_newline hparse hended more
  refine ⟨fun fault hmore => ?_, fun hmore => ?_⟩
  · rw [hmore, Option.map_some] at hfault
    exact runFully_of_fault hfault
  · rw [hmore, Option.map_none] at hfault
    have hwhole : whole = (runFully source).andThen ((runFully more).reline f) := by
      show runFully (source ++ Bytes.newline :: more) = _
      rw [runFully_of_clean hfault, htrees hmore, evaluateAll_append, evaluateAll_reline,
        ← runFully_of_clean hparse, ← runFully_of_clean hmore]
    rw [hwhole]
    rcases runFully source with ⟨outcomes, _ | fault⟩
    · refine ⟨fun fault h => ?_, fun _ => rfl⟩
      cases h
    · refine ⟨fun fault' h => ?_, fun h => ?_⟩
      · cases h
        rfl
      · cases h

/-- A source that ends in a comment, and below it a fault of evaluation. -/
theorem runFully_newline_comment :
    let source := utf8 "nil; // c"
    let more := utf8 "!nil;\n-nil"
    let f : Int → Int := (· + (1 + Bytes.newlines source : Nat))
    (parse source).2 = none ∧ Ended source ∧ (parse more).2 = none ∧
      (runFully source).fault = none ∧
      runFully (source ++ Bytes.newline :: more)
        = ⟨(runFully source).outcomes ++ (runFully more).outcomes,
          (runFully more).fault.map (Fault.reline f)⟩ := by
  intro source more f
  have hparse : (parse source).2 = none := by with_unfolding_all rfl
  have hended : Ended source := by
    refine ⟨[⟨.nilWord, utf8 "nil", .nil, 1⟩, ⟨.semicolon, utf8 ";", .nil, 1⟩], 1, ?_, ?_⟩
    · with_unfolding_all rfl
    intro t ht
    cases ht
    rfl
  have hmore : (parse more).2 = none := by with_unfolding_all rfl
  have hfault : (runFully source).fault = none := by with_unfolding_all rfl
  exact ⟨hparse, hended, hmore, hfault, ((runFully_newline hparse hended).2 hmore).2 hfault⟩

end Session

end Reckoner
