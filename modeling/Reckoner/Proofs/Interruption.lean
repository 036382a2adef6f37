import Reckoner.Proofs.Checked
import Reckoner.Proofs.Joining

/-!
# Reckoner.Proofs.Interruption — what an interrupted run keeps

A caller that answers "go on" `n` times is asked before each tree. So the run stops in front of tree
`n`, at the first tree that has no value, or behind the last tree, whichever comes first; where tree
`n` has no value either, the caller is asked first and the interruption is reported.

Main statement: `run_limited`.
-/

namespace Reckoner.Session

/-- The index of the first tree without a value; the number of trees if each has one. -/
def firstFault (trees : List Tree) : Nat := trees.findIdx fun t => !t.eval.isOk

/-- What keeps a tree from having a value. -/
def faultOf (t : Tree) : Option Fault :=
  match t.eval with
  | .error e => some e.fault
  | .ok _ => none

/-- `Shows t o`: the outcome is the tree in printed form with its value. -/
def Shows (t : Tree) (o : Outcome) : Prop := t.eval = .ok o.value ∧ o.expression = t.text

section
variable (cause : Interruption) (t : Tree) (rest : List Tree)

/-- What comes of trees, one after the other, for a caller that answers "go on" `n` times. -/
def evaluateUpTo (n : Nat) (trees : List Tree) : Run :=
  (evaluateOnto [] (.limited n cause) trees).1

theorem evaluateUpTo_zero :
    evaluateUpTo cause 0 (t :: rest) = ⟨[], some (.interrupted cause)⟩ := rfl

variable {t}

theorem evaluateUpTo_of_error {e : EvalFault} (h : t.eval = .error e) (n : Nat) :
    evaluateUpTo cause (n + 1) (t :: rest) = ⟨[], some e.fault⟩ := by
  simp [evaluateUpTo, evaluateOnto, Patience.limited, Patience.ask, h]

theorem evaluateUpTo_of_ok {v : Value} (h : t.eval = .ok v) (n : Nat) :
    evaluateUpTo cause (n + 1) (t :: rest)
      = ⟨⟨t.text, v⟩ :: (evaluateUpTo cause n rest).outcomes,
          (evaluateUpTo cause n rest).fault⟩ := by
  have hask : (Patience.limited (n + 1) cause).ask = (none, .limited n cause) := rfl
  simp only [evaluateUpTo, evaluateOnto, hask, h]
  rw [evaluateOnto_eq]
  rfl

end

section
variable {t : Tree} (rest : List Tree)

theorem firstFault_of_error {e : EvalFault} (h : t.eval = .error e) :
    firstFault (t :: rest) = 0 := by
  simp [firstFault, List.findIdx_cons, h, Except.isOk, Except.toBool]

theorem firstFault_of_ok {v : Value} (h : t.eval = .ok v) :
    firstFault (t :: rest) = firstFault rest + 1 := by
  simp [firstFault, List.findIdx_cons, h, Except.isOk, Except.toBool]

end

/-- The trees in front of the stop have their outcomes, in order. -/
theorem forall₂_evaluateUpTo (cause : Interruption) (n : Nat) (trees : List Tree) :
    List.Forall₂ Shows (trees.take (min n (firstFault trees)))
      (evaluateUpTo cause n trees).outcomes := by
  induction trees generalizing n with
  | nil =>
    rw [List.take_nil]
    exact .nil
  | cons t rest ih =>
    cases n with
    | zero =>
      rw [evaluateUpTo_zero, Nat.zero_min]
      exact .nil
    | succ n =>
      cases heval : t.eval with
      | error e =>
        rw [evaluateUpTo_of_error cause rest heval, firstFault_of_error rest heval]
        exact .nil
      | ok v =>
        rw [evaluateUpTo_of_ok cause rest heval, firstFault_of_ok rest heval,
          Nat.add_min_add_right, List.take_succ_cons]
        exact .cons ⟨heval, rfl⟩ (ih n)

/-- What the run reports: the interruption where the caller is asked once more in front of a tree
that the run gets to, else the fault of the first tree without a value. -/
theorem fault_evaluateUpTo (cause : Interruption) (n : Nat) (trees : List Tree) :
    (evaluateUpTo cause n trees).fault
      = if n < trees.length ∧ n ≤ firstFault trees then some (.interrupted cause)
        else trees[firstFault trees]?.bind faultOf := by
  induction trees generalizing n with
  | nil => simp [evaluateUpTo, evaluateOnto]
  | cons t rest ih =>
    cases n with
    | zero => simp [evaluateUpTo_zero]
    | succ n =>
      cases heval : t.eval with
      | error e =>
        rw [evaluateUpTo_of_error cause rest heval, firstFault_of_error rest heval]
        simp [faultOf, heval]
      | ok v =>
        rw [evaluateUpTo_of_ok cause rest heval, firstFault_of_ok rest heval]
        simpa using ih n

/-- More patience keeps the outcomes there are. -/
theorem evaluateUpTo_prefix (cause : Interruption) {n m : Nat} (h : n ≤ m) (trees : List Tree) :
    (evaluateUpTo cause n trees).outcomes <+: (evaluateUpTo cause m trees).outcomes := by
  induction trees generalizing n m with
  | nil => exact List.prefix_refl _
  | cons t rest ih =>
    cases n with
    | zero => exact List.nil_prefix
    | succ n =>
      obtain ⟨m, rfl⟩ : ∃ k, m = k + 1 := ⟨m - 1, by omega⟩
      cases heval : t.eval with
      | error e =>
        rw [evaluateUpTo_of_error cause rest heval]
        exact List.nil_prefix
      | ok v =>
        rw [evaluateUpTo_of_ok cause rest heval, evaluateUpTo_of_ok cause rest heval]
        exact List.cons_prefix_cons.2 ⟨rfl, ih (Nat.le_of_succ_le_succ h)⟩

/-- A tree at the index of the first fault has none but an error of types. -/
theorem exists_typeError {trees : List Tree} (hproper : ∀ t ∈ trees, t.Proper)
    (h : firstFault trees < trees.length) :
    ∃ t e d, trees[firstFault trees]? = some t ∧ t.eval = .error e ∧ e.fault = .diagnostic d ∧
      d.kind = .typeError := by
  have hfails : (!trees[firstFault trees].eval.isOk) = true := List.findIdx_getElem (w := h)
  have hget : trees[firstFault trees]? = some trees[firstFault trees] := List.getElem?_eq_getElem h
  have hmem : trees[firstFault trees] ∈ trees := List.getElem_mem h
  cases heval : trees[firstFault trees].eval with
  | ok v =>
    rw [heval] at hfails
    cases hfails
  | error e =>
    obtain ⟨node, -, d, hclash, hd⟩ := Tree.clash_of_eval (hproper _ hmem) heval
    exact ⟨_, e, d, hget, heval, hd, kind_of_clash hclash⟩

/-- **A run with a limit is an exact beginning of the whole run.** A source that does not read is
reported as such, to every caller and without asking it. For a source that reads, let `f` be the
index of the first tree without a value. A caller that answers "go on" `n` times gets the outcomes
of the first `min n f` trees; it is told of its interruption where it is asked in front of tree `n`,
else of the error of types in tree `f`, if there is such a tree. More patience keeps the outcomes
there are. -/
theorem run_limited (source : Bytes) (cause : Interruption) :
    (∀ fault, (parse source).2 = some fault →
      ∀ patience, run patience source = (⟨[], some fault⟩, patience)) ∧
    ((parse source).2 = none → ∀ n,
      let trees := (parse source).1
      let f := firstFault trees
      let r := (run (.limited n cause) source).1
      List.Forall₂ Shows (trees.take (min n f)) r.outcomes ∧
      (n < trees.length ∧ n ≤ f → r.fault = some (.interrupted cause)) ∧
      (¬(n < trees.length ∧ n ≤ f) → f < trees.length →
        ∃ t e d, trees[f]? = some t ∧ t.eval = .error e ∧ e.fault = .diagnostic d ∧
          d.kind = .typeError ∧ r.fault = some (.diagnostic d)) ∧
      (¬(n < trees.length ∧ n ≤ f) → ¬f < trees.length → r.fault = none)) ∧
    ∀ n m, n ≤ m →
      (run (.limited n cause) source).1.outcomes
        <+: (run (.limited m cause) source).1.outcomes := by
  refine ⟨fun fault hfault patience => run_of_fault hfault patience, ?_, ?_⟩
  · intro hclean n trees f r
    have hrun : r = evaluateUpTo cause n trees := congrArg Prod.fst (run_of_clean hclean _)
    have hproper : ∀ t ∈ trees, t.Proper := by
      intro t ht
      obtain ⟨_, -, _, -, hderives⟩ := exists_derives_of_mem_parse ht
      exact hderives.proper
    have hfault := fault_evaluateUpTo cause n trees
    rw [hrun]
    refine ⟨forall₂_evaluateUpTo cause n trees, ?_, ?_, ?_⟩
    · intro hstop
      rw [hfault, if_pos hstop]
    · intro hgo hf
      obtain ⟨t, e, d, hget, heval, hd, hkind⟩ := exists_typeError hproper hf
      refine ⟨t, e, d, hget, heval, hd, hkind, ?_⟩
      rw [hfault, if_neg hgo, hget, Option.bind_some, faultOf, heval, ← hd]
    · intro hgo hf
      rw [hfault, if_neg hgo, List.getElem?_eq_none (Nat.le_of_not_lt hf), Option.bind_none]
  · intro n m hle
    cases hparse : (parse source).2 with
    | some fault =>
      have hnone : (run (.limited n cause) source).1.outcomes = [] := by rw [run_of_fault hparse]
      rw [hnone]
      exact List.nil_prefix
    | none =>
      rw [run_of_clean hparse, run_of_clean hparse]
      exact evaluateUpTo_prefix cause hle (parse source).1

/-- A second tree without a value, and callers that are asked in front of it and behind. -/
theorem run_limited_second :
    let source := utf8 "nil; -nil; nil"
    (parse source).2 = none ∧ (parse source).1.length = 3 ∧ firstFault (parse source).1 = 1 ∧
      (run (.limited 1 .canceled) source).1.fault = some (.interrupted .canceled) ∧
      (∃ d, (run (.limited 2 .canceled) source).1.fault = some (.diagnostic d) ∧
        d.kind = .typeError) ∧
      (run (.limited 1 .canceled) source).1.outcomes.length = 1 ∧
      (run (.limited 1 .canceled) source).1.outcomes
        <+: (run (.limited 2 .canceled) source).1.outcomes := by
  intro source
  have hparse : (parse source).2 = none := by with_unfolding_all rfl
  have hlength : (parse source).1.length = 3 := by with_unfolding_all rfl
  have hfirst : firstFault (parse source).1 = 1 := by with_unfolding_all rfl
  obtain ⟨-, hlimited, hprefix⟩ := run_limited source .canceled
  obtain ⟨hshown, hstop, -, -⟩ := hlimited hparse 1
  obtain ⟨-, -, hfails, -⟩ := hlimited hparse 2
  rw [hlength, hfirst] at hstop hfails
  refine ⟨hparse, hlength, hfirst, hstop (by decide), ?_, ?_, hprefix 1 2 (by decide)⟩
  · obtain ⟨_, _, d, -, -, -, hkind, hfault⟩ := hfails (by decide) (by decide)
    exact ⟨d, hfault, hkind⟩
  · rw [← hshown.length_eq, hfirst, List.length_take, hlength]
    rfl

end Reckoner.Session
