import Reckoner.Tree

/-!
# Reckoner.Proofs.Grammar — which token lists are expressions

The grammar as a set of rules, apart from any way of reading tokens by it:

    expression → equality
    equality   → comparison ( ( "!=" | "==" ) comparison )*
    comparison → term ( ( ">" | ">=" | "<" | "<=" ) term )*
    term       → factor ( ( "-" | "+" ) factor )*
    factor     → unary ( ( "/" | "*" ) unary )*
    unary      → ( "!" | "-" ) unary | primary
    primary    → NUMBER | STRING | "true" | "false" | "nil" | "(" expression ")"

The four binary levels share one pair of rules. A repetition is a left-recursive rule, which gives
the chain the tree that leans to the left; `derives_level_iff` is the same rule with the repetition
spelled out as a list that is folded from the left.
-/

namespace Reckoner.Grammar

/-- The levels of binary operators, from the loosest to the tightest. -/
inductive Level where
  | equality | comparison | term | factor
  deriving DecidableEq, Repr

/-- The phrases of the grammar: one for every binary level, then operators in front of an operand,
then what needs no operator. -/
inductive Phrase where
  | level (l : Level)
  | unary
  | primary
  deriving DecidableEq, Repr

/-- An expression is a phrase of the loosest level. -/
abbrev Phrase.expression : Phrase := .level .equality

namespace Level

/-- The operators of a level. -/
def operators : Level → List TokenKind
  | equality => [.bangEqual, .equalEqual]
  | comparison => [.greater, .greaterEqual, .less, .lessEqual]
  | term => [.minus, .plus]
  | factor => [.slash, .star]

/-- What stands on both sides of a level's operators. -/
def operand : Level → Phrase
  | equality => .level comparison
  | comparison => .level term
  | term => .level factor
  | factor => .unary

/-- How tightly the operators of a level bind. -/
def rank : Level → Nat
  | equality => 0
  | comparison => 1
  | term => 2
  | factor => 3

end Level

/-- `Derives p ts t`: the tokens `ts` are a phrase `p`, and `t` is the tree of that derivation. -/
inductive Derives : Phrase → List Token → Tree → Prop
  | operand {l : Level} {ts : List Token} {t : Tree} :
      Derives l.operand ts t → Derives (.level l) ts t
  | chain {l : Level} {ls rs : List Token} {op : Token} {left right : Tree} :
      Derives (.level l) ls left → op.kind ∈ l.operators → Derives l.operand rs right →
      Derives (.level l) (ls ++ op :: rs) (.binary left op right)
  | signed {op : Token} {ts : List Token} {t : Tree} :
      op.kind = .bang ∨ op.kind = .minus → Derives .unary ts t →
      Derives .unary (op :: ts) (.unary op t)
  | unsigned {ts : List Token} {t : Tree} : Derives .primary ts t → Derives .unary ts t
  | number {tok : Token} : tok.kind = .number → Derives .primary [tok] (.literal tok.literal)
  | string {tok : Token} : tok.kind = .string → Derives .primary [tok] (.literal tok.literal)
  | trueWord {tok : Token} :
      tok.kind = .trueWord → Derives .primary [tok] (.literal (.bool true))
  | falseWord {tok : Token} :
      tok.kind = .falseWord → Derives .primary [tok] (.literal (.bool false))
  | nilWord {tok : Token} : tok.kind = .nilWord → Derives .primary [tok] (.literal .nil)
  | group {opening closing : Token} {ts : List Token} {t : Tree} :
      opening.kind = .leftParen → Derives .expression ts t → closing.kind = .rightParen →
      Derives .primary (opening :: (ts ++ [closing])) (.group t)

/-- A single expression, which a semicolon may follow. -/
inductive Sentence : List Token → Tree → Prop
  | bare {ts : List Token} {t : Tree} : Derives .expression ts t → Sentence ts t
  | ended {ts : List Token} {semicolon : Token} {t : Tree} :
      Derives .expression ts t → semicolon.kind = .semicolon → Sentence (ts ++ [semicolon]) t

/-- A program: expressions with a semicolon behind each, which the last one may lack. -/
inductive Program : List Token → List Tree → Prop
  | empty : Program [] []
  | last {ts : List Token} {t : Tree} : Derives .expression ts t → Program ts [t]
  | item {ts rest : List Token} {semicolon : Token} {t : Tree} {trees : List Tree} :
      Derives .expression ts t → semicolon.kind = .semicolon → Program rest trees →
      Program (ts ++ semicolon :: rest) (t :: trees)

/-! ## Levels and ranks -/

/-- The levels are those of the operator table: an operator is found there with its level's
rank. -/
theorem level?_eq_some_iff {k : TokenKind} {l : Level} :
    k.level? = some l.rank ↔ k ∈ l.operators := by
  cases l <;> cases k <;> decide

/-- Every operator of the table is one of some level. -/
theorem exists_level {k : TokenKind} {n : Nat} (h : k.level? = some n) :
    ∃ l : Level, l.rank = n ∧ k ∈ l.operators := by
  have hn : n ≤ 3 := by
    cases k <;> simp only [TokenKind.level?, Option.some.injEq, reduceCtorEq] at h <;> omega
  obtain ⟨l, rfl⟩ : ∃ l : Level, l.rank = n := by
    match n with
    | 0 => exact ⟨.equality, rfl⟩
    | 1 => exact ⟨.comparison, rfl⟩
    | 2 => exact ⟨.term, rfl⟩
    | 3 => exact ⟨.factor, rfl⟩
  exact ⟨l, rfl, level?_eq_some_iff.mp h⟩

/-- How tightly a phrase binds; the phrases without a binary operator bind tightest. -/
def Phrase.rank : Phrase → Nat
  | level l => l.rank
  | unary => 4
  | primary => 5

theorem Level.rank_le (l : Level) : l.rank ≤ 3 := by
  cases l <;> decide

theorem Phrase.rank_le (p : Phrase) : p.rank ≤ 5 := by
  rcases p with l | _ | _
  · exact Nat.le_trans l.rank_le (by decide)
  · decide
  · decide

theorem Phrase.eq_of_rank_eq {p q : Phrase} (h : p.rank = q.rank) : p = q := by
  rcases p with (_ | _ | _ | _) | _ | _ <;> rcases q with (_ | _ | _ | _) | _ | _ <;>
    simp_all [Phrase.rank, Level.rank]

/-- Operands bind one step more tightly than the operator between them. -/
theorem rank_operand (l : Level) : l.operand.rank = l.rank + 1 := by
  cases l <;> rfl

/-- A phrase that binds more tightly may stand wherever a looser one may. -/
theorem Derives.loosen {p q : Phrase} {ts : List Token} {t : Tree} (d : Derives p ts t)
    (h : q.rank ≤ p.rank) : Derives q ts t := by
  rcases Nat.eq_or_lt_of_le h with heq | hlt
  · exact Phrase.eq_of_rank_eq heq ▸ d
  · have hp := p.rank_le
    match q with
    | .level l =>
      have hl : l.operand.rank ≤ p.rank := by rw [rank_operand]; exact hlt
      exact .operand (d.loosen hl)
    | .unary =>
      have heq : p.rank = Phrase.primary.rank := Nat.le_antisymm hp hlt
      exact .unsigned (Phrase.eq_of_rank_eq heq ▸ d)
    | .primary => exact absurd hlt (Nat.not_lt.mpr hp)
termination_by p.rank - q.rank
decreasing_by
  have hlevel : (Phrase.level l).rank = l.rank := rfl
  rw [rank_operand]
  omega

/-! ## What a derivation consists of -/

/-- The tokens of a phrase are neither end marks nor semicolons, so both end a phrase. -/
theorem Derives.kind_ne {p : Phrase} {ts : List Token} {t : Tree} (d : Derives p ts t) :
    ∀ tok ∈ ts, tok.kind ≠ .eof ∧ tok.kind ≠ .semicolon := by
  have operator : ∀ {l : Level} {k : TokenKind}, k ∈ l.operators → k ≠ .eof ∧ k ≠ .semicolon := by
    intro l k hk
    constructor <;> rintro rfl <;> cases l <;> exact absurd hk (by decide)
  induction d with
  | operand _ ih => exact ih
  | chain _ hop _ ihl ihr =>
    intro tok hm
    rcases List.mem_append.mp hm with hl | hr
    · exact ihl tok hl
    · rcases List.mem_cons.mp hr with rfl | hr
      · exact operator hop
      · exact ihr tok hr
  | signed hop _ ih =>
    intro tok hm
    rcases List.mem_cons.mp hm with rfl | hm
    · rcases hop with hop | hop <;> simp [hop]
    · exact ih tok hm
  | unsigned _ ih => exact ih
  | group hopen _ hclose ih =>
    intro tok hm
    simp only [List.mem_cons, List.mem_append, List.not_mem_nil, or_false] at hm
    rcases hm with rfl | hm | rfl
    · simp [hopen]
    · exact ih tok hm
    · simp [hclose]
  | _ h => simp [h]

/-- No phrase is empty. -/
theorem Derives.ne_nil {p : Phrase} {ts : List Token} {t : Tree} (d : Derives p ts t) : ts ≠ [] := by
  induction d with
  | operand _ ih | unsigned _ ih => exact ih
  | _ => simp

/-- The repetition of a level spelled out: a first operand and pairs of an operator and an operand
behind it, whose tree is built by folding the pairs from the left. -/
theorem derives_level_iff {l : Level} {ts : List Token} {t : Tree} :
    Derives (.level l) ts t ↔
      ∃ (first : List Token) (tree : Tree) (pairs : List (Token × List Token × Tree)),
        Derives l.operand first tree ∧
        (∀ pair ∈ pairs, pair.1.kind ∈ l.operators ∧ Derives l.operand pair.2.1 pair.2.2) ∧
        ts = first ++ pairs.flatMap (fun pair => pair.1 :: pair.2.1) ∧
        t = pairs.foldl (fun left pair => .binary left pair.1 pair.2.2) tree := by
  constructor
  · intro d
    generalize hp : Phrase.level l = p at d
    induction d with
    | operand d =>
      cases hp
      exact ⟨_, _, [], d, by simp, by simp, rfl⟩
    | @chain _ _ rs op _ right _ hop dr ih =>
      cases hp
      obtain ⟨first, tree, pairs, df, hpairs, rfl, rfl⟩ := ih rfl
      refine ⟨first, tree, pairs ++ [(op, rs, right)], df, ?_, by simp, by simp⟩
      intro pair hm
      rcases List.mem_append.mp hm with hm | hm
      · exact hpairs pair hm
      · rw [List.mem_singleton.mp hm]
        exact ⟨hop, dr⟩
    | _ => cases hp
  · rintro ⟨first, tree, pairs, df, hpairs, rfl, rfl⟩
    have run : ∀ (read : List Token) (left : Tree), Derives (.level l) read left →
        Derives (.level l) (read ++ pairs.flatMap (fun pair => pair.1 :: pair.2.1))
          (pairs.foldl (fun left pair => .binary left pair.1 pair.2.2) left) := by
      induction pairs with
      | nil => intro read left d; simpa using d
      | cons pair pairs ih =>
        intro read left d
        obtain ⟨hop, dr⟩ := hpairs pair (by simp)
        have next := ih (fun p hm => hpairs p (List.mem_cons_of_mem _ hm)) _ _ (d.chain hop dr)
        simpa using next
    exact run first tree (.operand df)

end Reckoner.Grammar
