import Reckoner.Tree
import Reckoner.Diagnostic

/-!
# Reckoner.Tree.Parse — tokens as trees

Expressions are read by precedence, one token at a time. What is still open to the left of the
token is a stack of frames: operators that wait for their right operand and parentheses that wait
to be closed. An operator first closes every frame that binds at least as tightly, so operators of
one level group to the left.

A token list need not hold an end mark: behind its last token an end mark on the same line is seen,
and nothing is read past the first end mark.
-/

namespace Reckoner

/-- What the grammar wants at a token. -/
inductive Wanted where
  | expression
  | closingParen
  | separator
  | endOfInput
  deriving DecidableEq, Repr

namespace Token

/-- Where a token stands, as it follows the word "Error". -/
def place (t : Token) : Bytes :=
  if t.isEnd then utf8 " at end" else utf8 " at '" ++ t.lexeme ++ utf8 "'"

/-- The diagnostic for a token that is not what the grammar wants. -/
def misplaced (t : Token) : Wanted → Diagnostic
  | .expression => .unexpectedExpression t.line t.place
  | .closingParen => .expectedToken t.line t.place (utf8 "Expect ')' after expression.")
  | .separator => .expectedToken t.line t.place (utf8 "Expect ';' after expression.")
  | .endOfInput => .expectedToken t.line t.place (utf8 "Expect end of expression.")

end Token

namespace Tree

/-- Something that waits for what follows it. -/
inductive Frame where
  | unary (op : Token)
  | binary (left : Tree) (op : Token)
  | paren

/-- Closes the frames that bind at least as tightly as `level`, from the inside out. -/
def close (level : Nat) : List Frame → Tree → List Frame × Tree
  | .unary op :: stack, t => close level stack (.unary op t)
  | .binary left op :: stack, t =>
    if level ≤ op.kind.level?.getD 0 then close level stack (.binary left op t)
    else (.binary left op :: stack, t)
  | .paren :: stack, t => (.paren :: stack, t)
  | [], t => ([], t)

/-- The first token; behind the last one an end mark on `endLine`. -/
def current (endLine : Int) : List Token → Token
  | [] => .endMark endLine
  | t :: _ => t

/-- Reads on from the frames in `stack`: an operand is wanted if there is no `value?`, else the
value may be followed by an operator. Gives the tree, or the diagnostic at the token that does not
fit, and the tokens from there on. -/
def readOnto (endLine : Int) (stack : List Frame) (value? : Option Tree) :
    List Token → Except Diagnostic Tree × List Token
  | [] =>
    match value? with
    | none => (.error ((Token.endMark endLine).misplaced .expression), [])
    | some value =>
      match close 0 stack value with
      | ([], t) => (.ok t, [])
      | (_, _) => (.error ((Token.endMark endLine).misplaced .closingParen), [])
  | token :: rest =>
    match value? with
    | none =>
      if token.kind.isUnary then readOnto endLine (.unary token :: stack) none rest
      else if token.kind = .leftParen then readOnto endLine (.paren :: stack) none rest
      else match token.operand? with
        | some v => readOnto endLine stack (some (.literal v)) rest
        | none => (.error (token.misplaced .expression), token :: rest)
    | some value =>
      match token.kind.level? with
      | some level =>
        match close level stack value with
        | (stack, left) => readOnto endLine (.binary left token :: stack) none rest
      | none =>
        match close 0 stack value with
        | ([], t) => (.ok t, token :: rest)
        | (_ :: stack, t) =>
          if token.kind = .rightParen then readOnto endLine stack (some (.group t)) rest
          else (.error (token.misplaced .closingParen), token :: rest)

/-- Reads one expression from the front of the tokens. -/
def read (endLine : Int) (tokens : List Token) : Except Diagnostic Tree × List Token :=
  readOnto endLine [] none tokens

/-- Is there nothing left to read? -/
def atEnd : List Token → Bool
  | [] => true
  | t :: _ => t.isEnd

/-- Skips the tokens up to just behind a semicolon or just before the start of a statement;
`previous` is the last one skipped. -/
def skipFrom (previous : TokenKind) : List Token → List Token
  | [] => []
  | t :: rest =>
    if t.isEnd || previous = .semicolon || t.kind.startsStatement then t :: rest
    else skipFrom t.kind rest

/-- The tokens from which reading goes on after a fault at the first of these. -/
def recover : List Token → List Token
  | [] => []
  | t :: rest => if t.isEnd then t :: rest else skipFrom t.kind rest

/-- Reads one item of a program: an expression and the semicolon behind it, which the last item
may lack. -/
def readItem (endLine : Int) (tokens : List Token) : Except Diagnostic Tree × List Token :=
  match read endLine tokens with
  | (.error d, rest) => (.error d, rest)
  | (.ok t, rest) =>
    match rest with
    | [] => (.ok t, [])
    | token :: more =>
      if token.kind = .semicolon then (.ok t, more)
      else if token.isEnd then (.ok t, rest)
      else (.error (token.misplaced .separator), rest)

/-! ## Reading uses up tokens -/

theorem readOnto_suffix (endLine : Int) (stack : List Frame) (value? : Option Tree)
    (tokens : List Token) : (readOnto endLine stack value? tokens).2 <:+ tokens := by
  induction tokens generalizing stack value? with
  | nil =>
    unfold readOnto
    split
    · exact List.suffix_refl _
    · split <;> exact List.suffix_refl _
  | cons token rest ih =>
    have step := fun s v => (ih s v).trans (List.suffix_cons token rest)
    unfold readOnto
    split
    · split
      · exact step _ _
      · split
        · exact step _ _
        · split
          · exact step _ _
          · exact List.suffix_refl _
    · split
      · exact step _ _
      · split
        · exact List.suffix_refl _
        · split
          · exact step _ _
          · exact List.suffix_refl _

theorem length_skipFrom_le (previous : TokenKind) (tokens : List Token) :
    (skipFrom previous tokens).length ≤ tokens.length := by
  induction tokens generalizing previous with
  | nil => simp [skipFrom]
  | cons t rest ih =>
    unfold skipFrom
    split
    · exact Nat.le_refl _
    · exact Nat.le_succ_of_le (ih _)

theorem length_recover_le (tokens : List Token) : (recover tokens).length ≤ tokens.length := by
  unfold recover
  split
  · exact Nat.le_refl _
  · split
    · exact Nat.le_refl _
    · exact Nat.le_succ_of_le (length_skipFrom_le _ _)

theorem readItem_suffix (endLine : Int) (tokens : List Token) :
    (readItem endLine tokens).2 <:+ tokens := by
  have h := readOnto_suffix endLine [] none tokens
  unfold readItem read
  split
  · rename_i heq
    rwa [heq] at h
  · rename_i heq
    rw [heq] at h
    split
    · exact List.nil_suffix
    · split
      · exact (List.suffix_cons _ _).trans h
      · split <;> exact h

/-- A tree is never read from no tokens. -/
theorem length_readItem_lt {endLine : Int} {token : Token} {rest : List Token} {t : Tree}
    (h : (readItem endLine (token :: rest)).1 = .ok t) :
    (readItem endLine (token :: rest)).2.length ≤ rest.length := by
  have le : ∀ {stack : List Frame} {value? : Option Tree} {u : Tree} {more : List Token},
      readOnto endLine stack value? rest = (.ok u, more) → more.length ≤ rest.length := by
    intro stack value? u more heq
    have := (readOnto_suffix endLine stack value? rest).length_le
    rwa [heq] at this
  have key : ∀ {u : Tree} {more : List Token},
      read endLine (token :: rest) = (.ok u, more) → more.length ≤ rest.length := by
    intro u more heq
    unfold read readOnto at heq
    dsimp only at heq
    split at heq
    · exact le heq
    · split at heq
      · exact le heq
      · split at heq
        · exact le heq
        · simp at heq
  unfold readItem at h ⊢
  split at h
  · simp at h
  · rename_i heq
    have hle := key heq
    split at h
    · exact Nat.zero_le _
    · split at h
      · simp_all; omega
      · split at h
        · simp_all
        · simp at h

/-! ## Programs -/

/-- What a program's tokens hold: trees and diagnostics, each in order. -/
structure Program where
  trees : List Tree
  diagnostics : List Diagnostic

/-- Reads items until the end, recovering after each fault; `trees` and `diagnostics` hold what was
found so far in reverse order. Gives the tokens left as well: none, or the end mark and what
follows it. -/
def readProgramOnto (endLine : Int) (trees : List Tree) (diagnostics : List Diagnostic)
    (tokens : List Token) : Program × List Token :=
  match tokens with
  | [] => (⟨trees.reverse, diagnostics.reverse⟩, [])
  | token :: rest =>
    if he : token.isEnd then (⟨trees.reverse, diagnostics.reverse⟩, token :: rest)
    else
      match h : readItem endLine (token :: rest) with
      | (.ok t, more) =>
        have : more.length ≤ rest.length := by
          have := @length_readItem_lt endLine token rest t
          simp_all
        readProgramOnto endLine (t :: trees) diagnostics more
      | (.error d, more) =>
        have : (recover more).length ≤ rest.length := by
          have hs := readItem_suffix endLine (token :: rest)
          rw [h] at hs
          rcases Nat.lt_or_ge more.length (rest.length + 1) with hlt | hge
          · exact Nat.le_trans (length_recover_le more) (by omega)
          · have : more = token :: rest := hs.eq_of_length_le (by simpa using hge)
            subst this
            simp only [recover, he]
            exact length_skipFrom_le _ _
        readProgramOnto endLine trees (d :: diagnostics) (recover more)
termination_by tokens.length
decreasing_by all_goals simp; omega

/-- The line of the end mark that is seen behind a token list without one. -/
def endLineOf (tokens : List Token) : Int := (tokens.getLast?.map Token.line).getD 1

end Tree

/-- Reading in progress: the tokens still to come and the line on which they end. -/
structure Reading where
  endLine : Int
  rest : List Token

namespace Reading

/-- The start of a token list. -/
def start (tokens : List Token) : Reading := ⟨Tree.endLineOf tokens, tokens⟩

/-- Reads a single expression, which a semicolon may follow, and nothing else behind it. After a
fault reading is ready to go on behind it. -/
def single (r : Reading) : Except Diagnostic Tree × Reading :=
  match Tree.read r.endLine r.rest with
  | (.error d, rest) => (.error d, { r with rest := Tree.recover rest })
  | (.ok t, rest) =>
    let rest := match rest with
      | token :: more => if token.kind = .semicolon then more else token :: more
      | [] => []
    if Tree.atEnd rest then (.ok t, { r with rest := rest })
    else (.error ((Tree.current r.endLine rest).misplaced .endOfInput),
      { r with rest := Tree.recover rest })

/-- Reads all items up to the end. -/
def program (r : Reading) : Tree.Program × Reading :=
  match Tree.readProgramOnto r.endLine [] [] r.rest with
  | (found, rest) => (found, { r with rest := rest })

end Reading

/-- The tree of a token list that holds a single expression. -/
def Tree.parseSingle (tokens : List Token) : Except Diagnostic Tree :=
  (Reading.start tokens).single.1

/-- The trees and diagnostics of a token list. -/
def Tree.parseProgram (tokens : List Token) : Tree.Program :=
  (Reading.start tokens).program.1

end Reckoner
