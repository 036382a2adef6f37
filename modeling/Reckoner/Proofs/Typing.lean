import Reckoner.Tree.Eval
import Reckoner.Proofs.Grammar

/-!
# Reckoner.Proofs.Typing — evaluation fails by types alone

Whether a tree has a value, the type of that value and the fault it has instead are all decided by
the types of its literals. `Tree.type?` computes the type of a tree from them; where an operator's
operands do not fit it there is none. The operators of a tree are taken in the order in which they
are evaluated, operands first and from left to right (`Tree.operators`).

Each operator follows its types: it gives a value of the type that the table has for it, and a fixed
fault where the table has none (`applyUnary_follows`, `applyBinary_follows`). The rest is an
induction on the tree, once for one tree against its types (`Proper.decided`) and once for two trees
against each other (`Alike.agree`).

Main statement: `eval_by_types`.
-/

namespace Reckoner

/-! ## The types of operators -/

/-- The type of an operator in front of an operand. -/
def TokenKind.typeOn? : TokenKind → ValueType → Option ValueType
  | .bang, _ => some .bool
  | .minus, operand => if operand = .number then some .number else none
  | _, _ => none

/-- The type of an operator that takes two numbers to `result`. -/
def ValueType.ofNumbers? (result left right : ValueType) : Option ValueType :=
  if left = .number ∧ right = .number then some result else none

/-- The type of a sum: of two numbers or of two strings. -/
def ValueType.ofSum? (left right : ValueType) : Option ValueType :=
  if left = .number ∧ right = .number then some .number
  else if left = .string ∧ right = .string then some .string
  else none

/-- The type of an operator between two operands. -/
def TokenKind.typeBetween? : TokenKind → ValueType → ValueType → Option ValueType
  | .plus, left, right => ValueType.ofSum? left right
  | .minus, left, right => ValueType.ofNumbers? .number left right
  | .star, left, right => ValueType.ofNumbers? .number left right
  | .slash, left, right => ValueType.ofNumbers? .number left right
  | .less, left, right => ValueType.ofNumbers? .bool left right
  | .lessEqual, left, right => ValueType.ofNumbers? .bool left right
  | .greater, left, right => ValueType.ofNumbers? .bool left right
  | .greaterEqual, left, right => ValueType.ofNumbers? .bool left right
  | .equalEqual, _, _ => some .bool
  | .bangEqual, _, _ => some .bool
  | _, _, _ => none

namespace Tree

/-- The type of a tree, from the types of its literals. -/
def type? : Tree → Option ValueType
  | missing => none
  | literal v => some v.type
  | group inner => inner.type?
  | unary op operand =>
    match operand.type? with
    | some τ => op.kind.typeOn? τ
    | none => none
  | binary left op right =>
    match left.type?, right.type? with
    | some l, some r => op.kind.typeBetween? l r
    | _, _ => none

/-- The parts of a tree that are operators with their operands, in postorder from left to right. -/
def operators : Tree → List Tree
  | missing => []
  | literal _ => []
  | group inner => inner.operators
  | unary op operand => operand.operators ++ [unary op operand]
  | binary left op right => left.operators ++ right.operators ++ [binary left op right]

/-- Are the operators of a tree those of the grammar? -/
def Proper : Tree → Prop
  | missing => False
  | literal _ => True
  | group inner => inner.Proper
  | unary op operand => (op.kind = .bang ∨ op.kind = .minus) ∧ operand.Proper
  | binary left op right =>
    (∃ l : Grammar.Level, op.kind ∈ l.operators) ∧ left.Proper ∧ right.Proper

/-- The complaint about an operator whose operands have types that do not fit it. -/
inductive Clash : Tree → Diagnostic → Prop
  | negation {op : Token} {operand : Tree} {τ : ValueType} (hop : op.kind = .minus)
      (hoperand : operand.type? = some τ) (hclash : op.kind.typeOn? τ = none) :
      Clash (.unary op operand)
        (.typeError op.line (utf8 "Operand must be a number, got " ++ τ.name ++ utf8 "."))
  | sum {left right : Tree} {op : Token} {l r : ValueType} (hop : op.kind = .plus)
      (hleft : left.type? = some l) (hright : right.type? = some r)
      (hclash : op.kind.typeBetween? l r = none) :
      Clash (.binary left op right)
        (.typeError op.line (utf8 "Operands must be two numbers or two strings, got " ++ l.name
          ++ utf8 " and " ++ r.name ++ utf8 "."))
  | numbers {left right : Tree} {op : Token} {l r : ValueType} (hop : op.kind ≠ .plus)
      (hleft : left.type? = some l) (hright : right.type? = some r)
      (hclash : op.kind.typeBetween? l r = none) :
      Clash (.binary left op right)
        (.typeError op.line (utf8 "Operands of '" ++ op.lexeme ++ utf8 "' must be numbers, got "
          ++ l.name ++ utf8 " and " ++ r.name ++ utf8 "."))

/-- The complaint about the first of these operators that has no type. -/
def FirstClash (nodes : List Tree) (d : Diagnostic) : Prop :=
  ∃ node, nodes.find? (·.type?.isNone) = some node ∧ Clash node d

/-- Trees that differ at most in the values of their literals, not in the types of these. -/
inductive Alike : Tree → Tree → Prop
  | missing : Alike .missing .missing
  | literal {v w : Value} (h : v.type = w.type) : Alike (.literal v) (.literal w)
  | group {t u : Tree} (h : Alike t u) : Alike (.group t) (.group u)
  | unary {op : Token} {t u : Tree} (h : Alike t u) : Alike (.unary op t) (.unary op u)
  | binary {op : Token} {t t' u u' : Tree} (hleft : Alike t u) (hright : Alike t' u') :
      Alike (.binary t op t') (.binary u op u')

end Tree

/-- The trees of the grammar have no other operators. -/
theorem Grammar.Derives.proper {p : Grammar.Phrase} {ts : List Token} {t : Tree}
    (d : Grammar.Derives p ts t) : t.Proper := by
  induction d with
  | operand _ ih => exact ih
  | @chain l _ _ _ _ _ _ hop _ ihl ihr => exact ⟨⟨l, hop⟩, ihl, ihr⟩
  | signed hop _ ih => exact ⟨hop, ih⟩
  | unsigned _ ih => exact ih
  | group _ _ _ ih => exact ih
  | _ => trivial

/-! ## Operators follow their types -/

/-- `Follows expected fault answer`: the answer is a value of the expected type, or the fault where
no type is expected. -/
def Follows (expected : Option ValueType) (fault : EvalFault) (answer : Except EvalFault Value) :
    Prop :=
  match expected with
  | some τ => ∃ v, answer = .ok v ∧ v.type = τ
  | none => answer = .error fault

namespace EvalFault

/-- The fault of an operator in front of an operand that does not fit it. -/
def ofUnary (op : Token) (operand : ValueType) : EvalFault :=
  if op.kind = .minus then .notNumber op operand else .noUnary op.kind

/-- The fault of an operator between operands that do not fit it. -/
def ofBinary (op : Token) (left right : ValueType) : EvalFault :=
  if op.kind = .plus then .notAddable op left right
  else if op.kind.level?.isSome then .notNumbers op left right
  else .noBinary op.kind

end EvalFault

namespace Value

theorem applyUnary_follows (op : Token) (v : Value) :
    Follows (op.kind.typeOn? v.type) (.ofUnary op v.type) (v.applyUnary op) := by
  unfold applyUnary
  split
  next hk =>
    rw [hk]
    exact ⟨_, rfl, rfl⟩
  next hk =>
    cases v with
    | number x => simp [Follows, TokenKind.typeOn?, hk, type]
    | _ => simp [Follows, TokenKind.typeOn?, EvalFault.ofUnary, hk, type]
  next hbang hminus =>
    have hnone : op.kind.typeOn? v.type = none := by
      unfold TokenKind.typeOn?
      split
      next hk => exact absurd hk hbang
      next hk => exact absurd hk hminus
      next => rfl
    have hfault : EvalFault.ofUnary op v.type = .noUnary op.kind := if_neg hminus
    rw [hnone, hfault]
    rfl

theorem onNumbers_follows {f : Float → Float → Value} {result : ValueType}
    (hf : ∀ x y, (f x y).type = result) (op : Token) (left right : Value) :
    Follows (ValueType.ofNumbers? result left.type right.type)
      (.notNumbers op left.type right.type) (left.onNumbers op f right) := by
  cases left with
  | number x =>
    cases right with
    | number y => exact ⟨f x y, rfl, hf x y⟩
    | _ => rfl
  | _ => rfl

theorem add_follows (op : Token) (left right : Value) :
    Follows (ValueType.ofSum? left.type right.type) (.notAddable op left.type right.type)
      (left.add op right) := by
  cases left <;> cases right <;> simp [Follows, ValueType.ofSum?, add, type]

theorem applyBinary_follows (op : Token) (left right : Value) :
    Follows (op.kind.typeBetween? left.type right.type) (.ofBinary op left.type right.type)
      (left.applyBinary op right) := by
  unfold applyBinary
  split
  next hk =>
    have hfault : EvalFault.ofBinary op left.type right.type
        = .notAddable op left.type right.type := by simp [EvalFault.ofBinary, hk]
    rw [hk, hfault]
    exact add_follows op left right
  iterate 7
    next hk =>
      have hfault : EvalFault.ofBinary op left.type right.type
          = .notNumbers op left.type right.type := by
        simp [EvalFault.ofBinary, hk, TokenKind.level?]
      rw [hk, hfault]
      apply onNumbers_follows
      intro x y
      rfl
  iterate 2
    next hk =>
      rw [hk]
      exact ⟨_, rfl, rfl⟩
  next =>
    have hnone : op.kind.typeBetween? left.type right.type = none := by
      unfold TokenKind.typeBetween?
      split <;> simp_all
    have hlevel : op.kind.level? = none := by
      unfold TokenKind.level?
      split <;> simp_all
    rw [hnone]
    simp_all [Follows, EvalFault.ofBinary]

end Value

namespace Tree

/-! ## The first operator that does not fit -/

theorem Clash.type?_eq_none {node : Tree} {d : Diagnostic} (h : Clash node d) :
    node.type? = none := by
  cases h with
  | negation _ hoperand hclash => simp [type?, hoperand, hclash]
  | sum _ hleft hright hclash => simp [type?, hleft, hright, hclash]
  | numbers _ hleft hright hclash => simp [type?, hleft, hright, hclash]

/-- There is one complaint about an operator. -/
theorem Clash.unique {node : Tree} {d d' : Diagnostic} (h : Clash node d) (h' : Clash node d') :
    d = d' := by
  cases h with
  | negation _ hoperand =>
    cases h' with
    | negation _ hoperand' =>
      cases hoperand.symm.trans hoperand'
      rfl
  | sum hop hleft hright =>
    cases h' with
    | sum _ hleft' hright' =>
      cases hleft.symm.trans hleft'
      cases hright.symm.trans hright'
      rfl
    | numbers hop' => exact absurd hop hop'
  | numbers hop hleft hright =>
    cases h' with
    | sum hop' => exact absurd hop' hop
    | numbers _ hleft' hright' =>
      cases hleft.symm.trans hleft'
      cases hright.symm.trans hright'
      rfl

theorem FirstClash.unique {nodes : List Tree} {d d' : Diagnostic} (h : FirstClash nodes d)
    (h' : FirstClash nodes d') : d = d' := by
  obtain ⟨node, hfind, hclash⟩ := h
  obtain ⟨node', hfind', hclash'⟩ := h'
  cases hfind.symm.trans hfind'
  exact hclash.unique hclash'

/-- Operators with a type have no clash among them. -/
theorem FirstClash.not_typed {nodes : List Tree} {d : Diagnostic} (h : FirstClash nodes d) :
    ¬ ∀ node ∈ nodes, node.type?.isSome = true := by
  obtain ⟨node, hfind, hclash⟩ := h
  intro htyped
  have hsome := htyped node (List.mem_of_find?_eq_some hfind)
  rw [hclash.type?_eq_none] at hsome
  cases hsome

theorem Clash.first {node : Tree} {d : Diagnostic} (h : Clash node d) : FirstClash [node] d :=
  ⟨node, by simp [h.type?_eq_none], h⟩

/-- What comes later does not matter. -/
theorem FirstClash.before {nodes : List Tree} {d : Diagnostic} (h : FirstClash nodes d)
    (more : List Tree) : FirstClash (nodes ++ more) d := by
  obtain ⟨node, hfind, hclash⟩ := h
  exact ⟨node, by rw [List.find?_append, hfind, Option.some_or], hclash⟩

/-- What comes before does not matter if it has types. -/
theorem FirstClash.behind {nodes more : List Tree} {d : Diagnostic} (h : FirstClash more d)
    (htyped : ∀ node ∈ nodes, node.type?.isSome = true) : FirstClash (nodes ++ more) d := by
  obtain ⟨node, hfind, hclash⟩ := h
  have hnone : nodes.find? (·.type?.isNone) = none := by
    rw [List.find?_eq_none]
    intro n hn
    simpa [Option.isSome_iff_ne_none] using htyped n hn
  exact ⟨node, by rw [List.find?_append, hnone, Option.none_or, hfind], hclash⟩

/-- An operand that does not fit a sign is complained about. -/
theorem clash_unary {op : Token} {operand : Tree} {τ : ValueType}
    (hop : op.kind = .bang ∨ op.kind = .minus) (hoperand : operand.type? = some τ)
    (hclash : op.kind.typeOn? τ = none) :
    ∃ d, (EvalFault.ofUnary op τ).fault = .diagnostic d ∧ Clash (.unary op operand) d := by
  rcases hop with hop | hop
  · rw [hop] at hclash
    cases hclash
  · refine ⟨_, ?_, .negation hop hoperand hclash⟩
    rw [EvalFault.ofUnary, if_pos hop]
    rfl

/-- Operands that do not fit the operator between them are complained about. -/
theorem clash_binary {op : Token} {left right : Tree} {l r : ValueType}
    (hop : ∃ level : Grammar.Level, op.kind ∈ level.operators) (hleft : left.type? = some l)
    (hright : right.type? = some r) (hclash : op.kind.typeBetween? l r = none) :
    ∃ d, (EvalFault.ofBinary op l r).fault = .diagnostic d ∧ Clash (.binary left op right) d := by
  by_cases hplus : op.kind = .plus
  · refine ⟨_, ?_, .sum hplus hleft hright hclash⟩
    rw [EvalFault.ofBinary, if_pos hplus]
    rfl
  · obtain ⟨level, hlevel⟩ := hop
    have hsome : op.kind.level?.isSome = true := by rw [Grammar.level?_eq_some_iff.mpr hlevel]; rfl
    refine ⟨_, ?_, .numbers hplus hleft hright hclash⟩
    rw [EvalFault.ofBinary, if_neg hplus, if_pos hsome]
    rfl

/-! ## One tree against its types -/

/-- A tree has a value of its type, and all its operators have types; or it has no type, and its
fault is the first clash. -/
def Decided (t : Tree) : Prop :=
  (∃ v, t.eval = .ok v ∧ t.type? = some v.type ∧ ∀ node ∈ t.operators, node.type?.isSome = true) ∨
    ∃ e d, t.eval = .error e ∧ e.fault = .diagnostic d ∧ t.type? = none ∧ FirstClash t.operators d

/-- An operator is evaluated last, when the operators `below` it have types, and follows its own. -/
theorem Decided.of_follows {node : Tree} {below : List Tree} {fault : EvalFault}
    (hoperators : node.operators = below ++ [node])
    (htyped : ∀ node ∈ below, node.type?.isSome = true)
    (hfollows : Follows node.type? fault node.eval)
    (hclash : node.type? = none → ∃ d, fault.fault = .diagnostic d ∧ Clash node d) :
    node.Decided := by
  cases htype : node.type? with
  | some τ =>
    rw [htype] at hfollows
    obtain ⟨v, hv, rfl⟩ := hfollows
    refine .inl ⟨v, hv, htype, ?_⟩
    rw [hoperators]
    refine List.forall_mem_append.2 ⟨htyped, List.forall_mem_singleton.2 ?_⟩
    rw [htype]
    rfl
  | none =>
    rw [htype] at hfollows
    obtain ⟨d, hd, hclash⟩ := hclash htype
    refine .inr ⟨fault, d, hfollows, hd, htype, ?_⟩
    rw [hoperators]
    exact hclash.first.behind htyped

theorem Decided.unary {op : Token} {operand : Tree} (hop : op.kind = .bang ∨ op.kind = .minus)
    (h : operand.Decided) : (Tree.unary op operand).Decided := by
  obtain ⟨v, heval, htype, htyped⟩ | ⟨e, d, heval, hfault, htype, hfirst⟩ := h
  · have hself : (Tree.unary op operand).type? = op.kind.typeOn? v.type := by simp [type?, htype]
    have hanswer : (Tree.unary op operand).eval = v.applyUnary op := by simp [eval, heval]
    apply Decided.of_follows rfl htyped
    · rw [hself, hanswer]
      exact v.applyUnary_follows op
    · rw [hself]
      exact clash_unary hop htype
  · refine .inr ⟨e, d, ?_, hfault, ?_, hfirst.before _⟩
    · simp [eval, heval]
    · simp [type?, htype]

theorem Decided.binary {op : Token} {left right : Tree}
    (hop : ∃ level : Grammar.Level, op.kind ∈ level.operators) (hleft : left.Decided)
    (hright : right.Decided) : (Tree.binary left op right).Decided := by
  obtain ⟨l, hevall, htypel, htypedl⟩ | ⟨e, d, heval, hfault, htype, hfirst⟩ := hleft
  · obtain ⟨r, hevalr, htyper, htypedr⟩ | ⟨e, d, heval, hfault, htype, hfirst⟩ := hright
    · have hself : (Tree.binary left op right).type? = op.kind.typeBetween? l.type r.type := by
        simp [type?, htypel, htyper]
      have hanswer : (Tree.binary left op right).eval = l.applyBinary op r := by
        simp [eval, hevall, hevalr]
      apply Decided.of_follows rfl (List.forall_mem_append.2 ⟨htypedl, htypedr⟩)
      · rw [hself, hanswer]
        exact l.applyBinary_follows op r
      · rw [hself]
        exact clash_binary hop htypel htyper
    · -- the left operand has a value, so its operators have types
      refine .inr ⟨e, d, ?_, hfault, ?_, (hfirst.behind htypedl).before _⟩
      · simp [eval, hevall, heval]
      · simp [type?, htypel, htype]
  · -- the right operand is not evaluated
    refine .inr ⟨e, d, ?_, hfault, ?_, (hfirst.before _).before _⟩
    · simp [eval, heval]
    · simp [type?, htype]

/-- Trees with the grammar's operators are decided by their types. -/
theorem Proper.decided {t : Tree} (h : t.Proper) : t.Decided := by
  induction t with
  | missing => exact h.elim
  | literal v => exact .inl ⟨v, rfl, rfl, by simp [operators]⟩
  | group inner ih => exact ih h
  | unary op operand ih => exact .unary h.1 (ih h.2)
  | binary left op right ihl ihr => exact .binary h.1 (ihl h.2.1) (ihr h.2.2)

/-! ## Two trees against each other -/

/-- Two answers of the same type, or the same fault. -/
def Agree (answer answer' : Except EvalFault Value) : Prop :=
  (∃ v w, answer = .ok v ∧ answer' = .ok w ∧ v.type = w.type) ∨
    ∃ e, answer = .error e ∧ answer' = .error e

/-- Answers that follow the same types agree. -/
theorem Agree.of_follows {expected : Option ValueType} {fault : EvalFault}
    {answer answer' : Except EvalFault Value} (h : Follows expected fault answer)
    (h' : Follows expected fault answer') : Agree answer answer' := by
  cases expected with
  | none => exact .inr ⟨fault, h, h'⟩
  | some τ =>
    obtain ⟨v, hv, rfl⟩ := h
    obtain ⟨w, hw, htype⟩ := h'
    exact .inl ⟨v, w, hv, hw, htype.symm⟩

/-- **The values of literals do not matter** to whether there is a fault, which one it is, and of
which type the value is otherwise. -/
theorem Alike.agree {t u : Tree} (h : Alike t u) : Agree t.eval u.eval := by
  induction h with
  | missing => exact .inr ⟨_, rfl, rfl⟩
  | literal h => exact .inl ⟨_, _, rfl, rfl, h⟩
  | group _ ih => exact ih
  | @unary op t u _ ih =>
    obtain ⟨v, w, hv, hw, htype⟩ | ⟨e, he, he'⟩ := ih
    · simp only [eval, hv, hw]
      have hfollows := w.applyUnary_follows op
      rw [← htype] at hfollows
      exact .of_follows (v.applyUnary_follows op) hfollows
    · exact .inr ⟨e, by simp [eval, he], by simp [eval, he']⟩
  | @binary op t t' u u' _ _ ihl ihr =>
    obtain ⟨v, w, hv, hw, htype⟩ | ⟨e, he, he'⟩ := ihl
    · obtain ⟨v', w', hv', hw', htype'⟩ | ⟨e, he, he'⟩ := ihr
      · simp only [eval, hv, hw, hv', hw']
        have hfollows := w.applyBinary_follows op w'
        rw [← htype, ← htype'] at hfollows
        exact .of_follows (v.applyBinary_follows op v') hfollows
      · exact .inr ⟨e, by simp [eval, hv, he], by simp [eval, hw, he']⟩
    · exact .inr ⟨e, by simp [eval, he], by simp [eval, he']⟩

/-- **Evaluation is decided by types.** A tree with the grammar's operators has a value exactly when
each of its operators has a type, and the value then has the type of the tree; otherwise its fault
is the complaint about the first operator, operands first and from left to right, that has none.
Trees that differ only in the values of their literals have values of one type or the same fault. -/
theorem eval_by_types (t : Tree) :
    (t.Proper →
      ((∃ v, t.eval = .ok v) ↔ ∀ node ∈ t.operators, node.type?.isSome = true) ∧
      (∀ v, t.eval = .ok v → t.type? = some v.type) ∧
      (∀ fault, (∃ e, t.eval = .error e ∧ e.fault = fault) ↔
        ∃ d, fault = .diagnostic d ∧ FirstClash t.operators d)) ∧
    ∀ u, Alike t u →
      (∃ v w, t.eval = .ok v ∧ u.eval = .ok w ∧ v.type = w.type) ∨
        ∃ e, t.eval = .error e ∧ u.eval = .error e := by
  refine ⟨fun h => ?_, fun u hu => hu.agree⟩
  obtain ⟨v, heval, htype, htyped⟩ | ⟨e, d, heval, hfault, -, hfirst⟩ := h.decided
  · refine ⟨⟨fun _ => htyped, fun _ => ⟨v, heval⟩⟩, ?_, ?_⟩
    · intro w hw
      cases heval.symm.trans hw
      exact htype
    · intro fault
      constructor
      · rintro ⟨e, he, -⟩
        cases heval.symm.trans he
      · rintro ⟨d, -, hfirst⟩
        exact absurd htyped hfirst.not_typed
  · have hnone : ∀ v, t.eval ≠ .ok v := by
      intro v hv
      cases heval.symm.trans hv
    refine ⟨⟨?_, fun htyped => absurd htyped hfirst.not_typed⟩, ?_, ?_⟩
    · rintro ⟨v, hv⟩
      exact absurd hv (hnone v)
    · intro v hv
      exact absurd hv (hnone v)
    · intro fault
      constructor
      · rintro ⟨e', he', rfl⟩
        cases heval.symm.trans he'
        exact ⟨d, hfault, hfirst⟩
      · rintro ⟨d', rfl, hfirst'⟩
        rw [hfirst'.unique hfirst]
        exact ⟨e, heval, hfault⟩

/-- `-"a" + (nil < 1)` fails at its sign, which comes before the comparison and the sum; so does
`-"" + (nil < 0)`. -/
theorem eval_by_types_sign :
    let op (k : TokenKind) (line : Int) : Token := ⟨k, [], .nil, line⟩
    let tree (s : Bytes) (x : Float) : Tree :=
      .binary (.unary (op .minus 1) (.literal (.string s))) (op .plus 2)
        (.group (.binary (.literal .nil) (op .less 3) (.literal (.number x))))
    let t := tree [byte 'a'] 1
    let u := tree [] 0
    let d := Diagnostic.typeError 1 (utf8 "Operand must be a number, got string.")
    t.Proper ∧ Alike t u ∧ FirstClash t.operators d ∧
      (∃ e, t.eval = .error e ∧ e.fault = .diagnostic d) ∧
      ((∃ v w, t.eval = .ok v ∧ u.eval = .ok w ∧ v.type = w.type) ∨
        ∃ e, t.eval = .error e ∧ u.eval = .error e) := by
  intro op tree t u d
  have hproper : t.Proper :=
    ⟨⟨.term, by decide⟩, ⟨.inr rfl, trivial⟩, ⟨.comparison, by decide⟩, trivial, trivial⟩
  have halike : Alike t u :=
    .binary (.unary (.literal rfl)) (.group (.binary (.literal rfl) (.literal rfl)))
  have hd : d = .typeError 1
      (utf8 "Operand must be a number, got " ++ ValueType.string.name ++ utf8 ".") := by decide
  have hclash : FirstClash t.operators d := by
    rw [hd]
    exact ⟨.unary (op .minus 1) (.literal (.string [byte 'a'])), rfl, .negation rfl rfl rfl⟩
  obtain ⟨hone, htwo⟩ := eval_by_types t
  exact ⟨hproper, halike, hclash, ((hone hproper).2.2 _).2 ⟨d, rfl, hclash⟩, htwo u halike⟩

end Tree

end Reckoner
