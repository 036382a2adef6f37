import Mathlib.Data.List.Forall2
import Reckoner.Session
import Reckoner.Proofs.Program
import Reckoner.Proofs.Typing

/-!
# Reckoner.Proofs.Origin — what is found comes from the tokens

Reading a program makes nothing up. Each tree is derived from tokens that stand next to each other
(`derives_of_mem_trees`), and its operators are among these (`Derives.exists_operator`). Each
diagnostic is about the token that reading stopped at, and recovery goes past that token; so the
diagnostics are about tokens in the order in which these stand, and no token has two of them
(`exists_blamed`).

A run therefore ends in one of five ways, each with its own reason (`run_ends`). What is known of
faults, such as where they are anchored, follows from this list.
-/

namespace Reckoner

/-- The operator at the root of a tree. -/
def Tree.operator? : Tree → Option Token
  | .unary op _ => some op
  | .binary _ op _ => some op
  | _ => none

/-- May a token of this kind be an operator of a tree? -/
def TokenKind.IsOperator (kind : TokenKind) : Prop :=
  kind.isUnary = true ∨ kind.level?.isSome = true

/-- The operators of a derived tree are tokens that it was derived from. -/
theorem Grammar.Derives.exists_operator {p : Grammar.Phrase} {ts : List Token} {t : Tree}
    (d : Grammar.Derives p ts t) :
    ∀ node ∈ t.operators, ∃ op ∈ ts, node.operator? = some op ∧ op.kind.IsOperator := by
  -- operators found among fewer tokens are found among more
  have widen : ∀ {ts ts' : List Token} {u : Tree}, ts ⊆ ts' →
      (∀ node ∈ u.operators, ∃ op ∈ ts, node.operator? = some op ∧ op.kind.IsOperator) →
      ∀ node ∈ u.operators, ∃ op ∈ ts', node.operator? = some op ∧ op.kind.IsOperator := by
    intro ts ts' u hsub h node hnode
    obtain ⟨op, hop, hroot⟩ := h node hnode
    exact ⟨op, hsub hop, hroot⟩
  induction d with
  | operand _ ih => exact ih
  | unsigned _ ih => exact ih
  | @chain l ls rs op left right _ hop _ ihl ihr =>
    have hkind : op.kind.IsOperator := by
      apply Or.inr
      rw [Grammar.level?_eq_some_iff.2 hop]
      rfl
    refine List.forall_mem_append.2 ⟨List.forall_mem_append.2 ⟨widen ?_ ihl, widen ?_ ihr⟩, ?_⟩
    · exact List.subset_append_left _ _
    · exact List.Subset.trans (List.subset_cons_self _ _) (List.subset_append_right _ _)
    · exact List.forall_mem_singleton.2 ⟨op, by simp, rfl, hkind⟩
  | @signed op ts t hop _ ih =>
    have hkind : op.kind.IsOperator := by
      apply Or.inl
      rcases hop with hop | hop <;> rw [hop] <;> rfl
    refine List.forall_mem_append.2 ⟨widen (List.subset_cons_self _ _) ih, ?_⟩
    exact List.forall_mem_singleton.2 ⟨op, by simp, rfl, hkind⟩
  | group _ _ _ ih =>
    apply widen _ ih
    exact List.Subset.trans (List.subset_append_left _ _) (List.subset_cons_self _ _)
  | _ => simp [Tree.operators]

namespace Tree

open Grammar (Derives)

open scoped List

/-! ## Turn after turn -/

/-- What holds of no tokens, and of tokens from an end mark on, and is carried over from behind a
turn to in front of it, holds of all tokens that a program is read from. -/
theorem program_induction (endLine : Int) {motive : List Token → Prop} (nil : motive [])
    (stop : ∀ tok rest, tok.isEnd = true → motive (tok :: rest))
    (step : ∀ tok rest outcome more, tok.isEnd = false → more <:+ rest →
      turn endLine (tok :: rest) = (outcome, more) → motive more → motive (tok :: rest))
    (tokens : List Token) : motive tokens := by
  -- by the length of the tokens, which every turn makes shorter
  induction hn : tokens.length using Nat.strongRecOn generalizing tokens with
  | ind n ih =>
    rcases tokens with _ | ⟨tok, rest⟩
    · exact nil
    cases hend : tok.isEnd with
    | true => exact stop tok rest hend
    | false =>
      rcases hturn : turn endLine (tok :: rest) with ⟨outcome, more⟩
      have hmore : more <:+ rest := by
        have hsuffix := turn_suffix endLine rest hend
        rwa [hturn] at hsuffix
      have hlt : more.length < n := by
        rw [← hn]
        exact Nat.lt_succ_of_le hmore.length_le
      exact step tok rest outcome more hend hmore hturn (ih _ hlt more rfl)

/-! ## Trees -/

/-- A turn that gives a tree has derived it from the tokens in front. -/
theorem derives_of_turn {endLine : Int} {tokens more : List Token} {t : Tree}
    (h : turn endLine tokens = (.ok t, more)) :
    ∃ used, used <+: tokens ∧ Derives .expression used t := by
  obtain ⟨used, d, ⟨semicolon, -, rfl⟩ | ⟨rfl, -⟩⟩ := readItem_eq_ok_iff.1 (turn_eq_ok_iff.1 h)
  · exact ⟨used, List.prefix_append _ _, d⟩
  · exact ⟨used, List.prefix_append _ _, d⟩

/-- **Every tree of a program is derived from tokens that stand next to each other.** -/
theorem derives_of_mem_trees (endLine : Int) (tokens : List Token) :
    ∀ t ∈ (readProgram endLine tokens).1.trees,
      ∃ used, used <:+: tokens ∧ Derives .expression used t := by
  induction tokens using program_induction endLine with
  | nil => simp [Program.empty]
  | stop tok rest hend => simp [readProgram_end hend, Program.empty]
  | step tok rest outcome more hend hmore hturn ih =>
    have hbehind : ∀ t ∈ (readProgram endLine more).1.trees,
        ∃ used, used <:+: tok :: rest ∧ Derives .expression used t := by
      intro t ht
      obtain ⟨used, hused, d⟩ := ih t ht
      exact ⟨used, hused.trans (hmore.trans (List.suffix_cons tok rest)).isInfix, d⟩
    rw [readProgram_turn hend hturn]
    cases outcome with
    | error d => exact hbehind
    | ok t =>
      obtain ⟨used, hused, d⟩ := derives_of_turn hturn
      exact List.forall_mem_cons.2 ⟨⟨used, hused.isInfix, d⟩, hbehind⟩

/-! ## Diagnostics -/

/-- `Blames d tok`: the diagnostic says that the token is not what the grammar wants there. -/
def Blames (d : Diagnostic) (tok : Token) : Prop := ∃ wanted, d = tok.misplaced wanted

theorem Blames.line {d : Diagnostic} {tok : Token} (h : Blames d tok) : d.line = tok.line := by
  obtain ⟨wanted, rfl⟩ := h
  cases wanted <;> rfl

theorem Blames.place {d : Diagnostic} {tok : Token} (h : Blames d tok) : d.place = tok.place := by
  obtain ⟨wanted, rfl⟩ := h
  cases wanted <;> rfl

theorem exists_blames_of_mem {ds : List Diagnostic} {blamed : List Token}
    (h : List.Forall₂ Blames ds blamed) : ∀ d ∈ ds, ∃ t ∈ blamed, Blames d t := by
  induction h with
  | nil => simp
  | cons hblames _ ih =>
    refine List.forall_mem_cons.2 ⟨⟨_, List.mem_cons_self, hblames⟩, ?_⟩
    intro d hd
    obtain ⟨t, ht, hdt⟩ := ih d hd
    exact ⟨t, List.mem_cons_of_mem _ ht, hdt⟩

/-- Reading fails at the token that it stops in front of. -/
theorem blames_of_readOnto {endLine : Int} {stack : List Frame} {value? : Option Tree}
    {tokens rest : List Token} {d : Diagnostic}
    (h : readOnto endLine stack value? tokens = (.error d, rest)) :
    Blames d (current endLine rest) := by
  induction tokens generalizing stack value? with
  | nil =>
    cases value? with
    | none =>
      obtain ⟨rfl, rfl⟩ : _ = d ∧ [] = rest := by simpa [readOnto] using h
      exact ⟨.expression, rfl⟩
    | some value =>
      rcases hc : close 0 stack value with ⟨_ | ⟨frame, outer⟩, u⟩
      · simp [readOnto, hc] at h
      · obtain ⟨rfl, rfl⟩ : _ = d ∧ [] = rest := by simpa [readOnto, hc] using h
        exact ⟨.closingParen, rfl⟩
  | cons token more ih =>
    rcases shift_or_halt token stack value? with ⟨stack', value?', hs⟩ | ⟨answer, hh⟩
    · rw [readOnto_shift hs] at h
      exact ih h
    · rw [readOnto_halt hh] at h
      obtain ⟨rfl, rfl⟩ := Prod.mk.inj h
      cases hh with
      | noOperand => exact ⟨.expression, rfl⟩
      | unclosed => exact ⟨.closingParen, rfl⟩

/-- A single expression fails at a token of what was to be read, or at the end mark behind it. -/
theorem blames_of_single {r : Reading} {d : Diagnostic} (h : r.single.1 = .error d) :
    ∃ tok ∈ r.rest ++ [.endMark r.endLine], Blames d tok := by
  have hmem : ∀ {rest}, rest <:+ r.rest →
      current r.endLine rest ∈ r.rest ++ [.endMark r.endLine] := by
    intro rest hsuffix
    rcases rest with _ | ⟨tok, rest⟩
    · exact List.mem_append_right _ (List.mem_singleton.2 rfl)
    · exact List.mem_append_left _ (hsuffix.subset List.mem_cons_self)
  have hsuffix := readOnto_suffix r.endLine [] none r.rest
  rcases hread : read r.endLine r.rest with ⟨d' | t, rest⟩
  · obtain rfl : d' = d := by simpa [Reading.single, hread] using h
    rw [← read, hread] at hsuffix
    exact ⟨_, hmem hsuffix, blames_of_readOnto hread⟩
  · rw [← read, hread] at hsuffix
    rcases rest with _ | ⟨tok, more⟩
    · simp [Reading.single, hread, atEnd] at h
    by_cases hs : tok.kind = .semicolon
    · cases hend : atEnd more with
      | true => simp [Reading.single, hread, hs, hend] at h
      | false =>
        obtain rfl : _ = d := by simpa [Reading.single, hread, hs, hend] using h
        exact ⟨_, hmem ((List.suffix_cons tok more).trans hsuffix), .endOfInput, rfl⟩
    · cases hend : atEnd (tok :: more) with
      | true => simp [Reading.single, hread, hs, hend] at h
      | false =>
        obtain rfl : _ = d := by simpa [Reading.single, hread, hs, hend] using h
        exact ⟨_, hmem hsuffix, .endOfInput, rfl⟩

/-- An item fails at the token that reading it stops in front of. -/
theorem blames_of_readItem {endLine : Int} {tokens rest : List Token} {d : Diagnostic}
    (h : readItem endLine tokens = (.error d, rest)) : Blames d (current endLine rest) := by
  rcases hread : read endLine tokens with ⟨d' | t, left⟩
  · obtain ⟨rfl, rfl⟩ : d' = d ∧ left = rest := by simpa [readItem, hread] using h
    exact blames_of_readOnto hread
  · rcases left with _ | ⟨tok, behind⟩
    · simp [readItem, hread] at h
    by_cases hs : tok.kind = .semicolon
    · simp [readItem, hread, hs] at h
    cases hend : tok.isEnd with
    | true => simp [readItem, hread, hs, hend] at h
    | false =>
      obtain ⟨rfl, rfl⟩ : tok.misplaced .separator = d ∧ tok :: behind = rest := by
        simpa [readItem, hread, hs, hend] using h
      exact ⟨.separator, rfl⟩

/-- A turn fails at a token, and recovers from there. -/
theorem blames_of_turn {endLine : Int} {tokens more : List Token} {d : Diagnostic}
    (h : turn endLine tokens = (.error d, more)) :
    ∃ rest, rest <:+ tokens ∧ more = recover rest ∧ Blames d (current endLine rest) := by
  have hsuffix := readItem_suffix endLine tokens
  rcases hitem : readItem endLine tokens with ⟨d' | t, rest⟩
  · obtain ⟨rfl, rfl⟩ : d' = d ∧ recover rest = more := by simpa [turn, hitem] using h
    rw [hitem] at hsuffix
    exact ⟨rest, hsuffix, rfl, blames_of_readItem hitem⟩
  · simp [turn, hitem] at h

/-- Behind a fault, whatever is blamed stands behind the token blamed for it. -/
theorem sublist_of_recover {endLine : Int} {rest blamed : List Token}
    (hsub : blamed <+ recover rest ++ [.endMark endLine])
    (hblames : List.Forall₂ Blames (readProgram endLine (recover rest)).1.diagnostics blamed) :
    current endLine rest :: blamed <+ rest ++ [.endMark endLine] := by
  rcases rest with _ | ⟨tok, rest⟩
  · rw [recover, readProgram_nil] at hblames
    cases hblames
    exact List.Sublist.refl _
  cases hend : tok.isEnd with
  | true =>
    -- recovery stays in front of an end mark, and reading ends there
    have hstay : recover (tok :: rest) = tok :: rest := by simp [recover, hend]
    rw [hstay, readProgram_end hend] at hblames
    cases hblames
    simp [current]
  | false =>
    exact (hsub.trans ((recover_cons_suffix hend).sublist.append_right _)).cons_cons tok

/-- **Diagnostics are about tokens in order**, each about another one: a token of the program or
the end mark behind it. -/
theorem exists_blamed (endLine : Int) (tokens : List Token) :
    ∃ blamed, blamed <+ tokens ++ [.endMark endLine] ∧
      List.Forall₂ Blames (readProgram endLine tokens).1.diagnostics blamed := by
  induction tokens using program_induction endLine with
  | nil => exact ⟨[], List.nil_sublist _, by simp [Program.empty]⟩
  | stop tok rest hend =>
    exact ⟨[], List.nil_sublist _, by simp [readProgram_end hend, Program.empty]⟩
  | step tok rest outcome more hend hmore hturn ih =>
    obtain ⟨blamed, hsub, hblames⟩ := ih
    rw [readProgram_turn hend hturn]
    cases outcome with
    | ok t =>
      have hbehind : more <+ tok :: rest := hmore.sublist.trans (List.sublist_cons_self tok rest)
      exact ⟨blamed, hsub.trans (hbehind.append_right _), hblames⟩
    | error d =>
      obtain ⟨stop, hstop, rfl, hd⟩ := blames_of_turn hturn
      have hfront := sublist_of_recover hsub hblames
      exact ⟨_, hfront.trans (hstop.sublist.append_right _), .cons hd hblames⟩

/-- A tree of the grammar that has no value has an operator that its operands clash with. -/
theorem clash_of_eval {t : Tree} {e : EvalFault} (hproper : t.Proper) (h : t.eval = .error e) :
    ∃ node ∈ t.operators, ∃ d, Clash node d ∧ e.fault = .diagnostic d := by
  obtain ⟨v, hv, -⟩ | ⟨e', d, he', hfault, -, node, hfind, hclash⟩ := hproper.decided
  · cases h.symm.trans hv
  · cases h.symm.trans he'
    exact ⟨node, List.mem_of_find?_eq_some hfind, d, hclash, hfault⟩

end Tree

/-! ## How a run ends -/

/-- The diagnostics that were joined. -/
theorem Fault.diagnosticsOf_map (ds : List Diagnostic) :
    diagnosticsOf (ds.map .diagnostic) = ds := by
  induction ds with
  | nil => rfl
  | cons d ds ih =>
    simp only [List.map_cons, diagnosticsOf, diagnostics, ih, List.singleton_append]

/-- Asking does not change what an interruption says, and there is none without a limit. -/
theorem Patience.ask_cases {p q : Patience} {answer : Option Interruption}
    (h : p.ask = (answer, q)) :
    q.cause = p.cause ∧ (q.left ≠ none → p.left ≠ none) ∧
      ∀ cause ∈ answer, cause = p.cause ∧ p.left ≠ none := by
  unfold ask at h
  split at h <;> cases h <;> simp_all

namespace Session

open Reckoner.Tree

/-- Trees that are not all evaluated are followed by an interruption, or by the fault of one. -/
theorem evaluateOnto_fault {done : List Outcome} {patience : Patience} {trees : List Tree}
    {fault : Fault} (h : (evaluateOnto done patience trees).1.fault = some fault) :
    patience.left ≠ none ∧ fault = .interrupted patience.cause ∨
      ∃ t ∈ trees, ∃ e : EvalFault, t.eval = .error e ∧ fault = e.fault := by
  induction trees generalizing done patience with
  | nil => cases h
  | cons t rest ih =>
    rw [evaluateOnto] at h
    rcases hask : patience.ask with ⟨answer, patience'⟩
    obtain ⟨hkept, hlimited, hanswer⟩ := Patience.ask_cases hask
    rw [hask] at h
    cases answer with
    | some cause =>
      obtain ⟨hcause, hleft⟩ := hanswer cause rfl
      rw [← hcause]
      exact .inl ⟨hleft, (Option.some.inj h).symm⟩
    | none =>
      cases heval : t.eval with
      | error e =>
        simp only [heval, Option.some.injEq] at h
        exact .inr ⟨t, List.mem_cons_self, e, heval, h.symm⟩
      | ok v =>
        simp only [heval] at h
        obtain ⟨hleft, hcause⟩ | ⟨u, hu, hfault⟩ := ih h
        · exact .inl ⟨hlimited hleft, hkept ▸ hcause⟩
        · exact .inr ⟨u, List.mem_cons_of_mem t hu, hfault⟩

/-- The trees of a source are derived from its tokens. -/
theorem exists_derives_of_mem_parse {source : Bytes} {t : Tree} (h : t ∈ (parse source).1) :
    ∃ tokens, Token.scan source = .ok tokens ∧
      ∃ used, used <:+: tokens ∧ Grammar.Derives .expression used t := by
  unfold parse at h
  split at h
  · cases h
  · next tokens hscan =>
    exact ⟨tokens, hscan, derives_of_mem_trees (endLineOf tokens) tokens t h⟩

/-- The ways in which a run of a source ends: without a fault, with the diagnostic of the scanner,
with the joined diagnostics of its tokens, with the complaint about an operator of one of its trees,
or interrupted by a caller whose patience has a limit. -/
inductive Ends (patience : Patience) (source : Bytes) : Option Fault → Prop
  | clean : Ends patience source none
  | unscanned {d : Diagnostic} (hscan : Token.scan source = .error d) :
      Ends patience source (some (.diagnostic d))
  | ungrammatical {tokens : List Token} (hscan : Token.scan source = .ok tokens)
      (hne : (parseProgram tokens).diagnostics ≠ []) :
      Ends patience source (some (.joined ((parseProgram tokens).diagnostics.map .diagnostic)))
  | clash {t node : Tree} {d : Diagnostic} (ht : t ∈ (parse source).1)
      (hnode : node ∈ t.operators) (hclash : Clash node d) :
      Ends patience source (some (.diagnostic d))
  | interrupted (hleft : patience.left ≠ none) :
      Ends patience source (some (.interrupted patience.cause))

/-- **A run ends in one of these ways.** -/
theorem run_ends (patience : Patience) (source : Bytes) :
    Ends patience source (run patience source).1.fault := by
  cases hscan : Token.scan source with
  | error d =>
    have hrun : (run patience source).1.fault = some (.diagnostic d) := by
      simp only [run, parse, hscan]
    rw [hrun]
    exact .unscanned hscan
  | ok tokens =>
    by_cases hne : (parseProgram tokens).diagnostics = []
    · have hparse : parse source = ((parseProgram tokens).trees, none) := by
        simp only [parse, hscan, hne, List.map_nil]
        rfl
      have hrun : run patience source = evaluateOnto [] patience (parse source).1 := by
        simp only [run, hparse]
      rw [hrun]
      cases hfault : (evaluateOnto [] patience (parse source).1).1.fault with
      | none => exact .clean
      | some fault =>
        obtain ⟨hleft, rfl⟩ | ⟨t, ht, e, heval, rfl⟩ := evaluateOnto_fault hfault
        · exact .interrupted hleft
        · obtain ⟨_, -, _, -, hderives⟩ := exists_derives_of_mem_parse ht
          obtain ⟨node, hnode, d, hclash, hd⟩ := clash_of_eval hderives.proper heval
          rw [hd]
          exact .clash ht hnode hclash
    · have hrun : (run patience source).1.fault
          = some (.joined ((parseProgram tokens).diagnostics.map .diagnostic)) := by
        simp only [run, parse, hscan, Fault.join?]
        simp [hne]
      rw [hrun]
      exact .ungrammatical hscan hne

end Session

end Reckoner
