import Reckoner.Proofs.Origin

/-!
# Reckoner.Proofs.Parentheses — parentheses only group

A pair of parentheses leaves a group in the tree, and evaluating a group is evaluating what is
inside (`eval_ungrouped`). So parentheses matter by what they keep together and by nothing else. To
write a tree so that nothing is left to precedence, put a pair around every operator with its
operands; `Enclosed` says that tokens are a tree written so. Between parentheses every phrase stands
for a primary one, so that the tokens are read as the same tree, groups apart (`Enclosed.derives`).

Main statement: `parentheses_neutral`.
-/

namespace Reckoner

/-- Is it a parenthesis? -/
def Token.isParen (t : Token) : Bool := t.kind = .leftParen || t.kind = .rightParen

namespace Tree

open Grammar (Derives Level Phrase)

open scoped List

/-- The tree without its groups. -/
def ungrouped : Tree → Tree
  | missing => missing
  | literal v => literal v
  | group inner => inner.ungrouped
  | unary op operand => unary op operand.ungrouped
  | binary left op right => binary left.ungrouped op right.ungrouped

/-- **Groups do not count in evaluation**, neither for the value nor for the fault. -/
theorem eval_ungrouped (t : Tree) : t.ungrouped.eval = t.eval := by
  induction t with
  | missing => rfl
  | literal v => rfl
  | group inner ih => exact ih
  | unary op operand ih => simp only [ungrouped, eval, ih]
  | binary left op right ihl ihr => simp only [ungrouped, eval, ihl, ihr]

/-- `Enclosed t ts`: the tokens are the tree in infix form with a pair of parentheses around every
operator and its operands. A group is written as one more pair or not at all. -/
inductive Enclosed : Tree → List Token → Prop
  | literal {tok : Token} {v : Value} (h : tok.operand? = some v) : Enclosed (.literal v) [tok]
  | dropped {t : Tree} {ts : List Token} (h : Enclosed t ts) : Enclosed (.group t) ts
  | kept {opening closing : Token} {t : Tree} {ts : List Token}
      (hopening : opening.kind = .leftParen) (hclosing : closing.kind = .rightParen)
      (h : Enclosed t ts) : Enclosed (.group t) (opening :: (ts ++ [closing]))
  | unary {opening op closing : Token} {t : Tree} {ts : List Token}
      (hopening : opening.kind = .leftParen) (hclosing : closing.kind = .rightParen)
      (h : Enclosed t ts) : Enclosed (.unary op t) (opening :: (op :: ts ++ [closing]))
  | binary {opening op closing : Token} {left right : Tree} {ls rs : List Token}
      (hopening : opening.kind = .leftParen) (hclosing : closing.kind = .rightParen)
      (hleft : Enclosed left ls) (hright : Enclosed right rs) :
      Enclosed (.binary left op right) (opening :: (ls ++ op :: rs ++ [closing]))

/-! ## Reading what is enclosed -/

/-- What is enclosed is read as a primary phrase, and its tree is the same up to groups. -/
theorem Enclosed.derives {t : Tree} {ts : List Token} (h : Enclosed t ts) (hproper : t.Proper) :
    ∃ u, Derives .primary ts u ∧ u.ungrouped = t.ungrouped := by
  have hloose : ∀ {us : List Token} {u : Tree} (p : Phrase), Derives .primary us u →
      Derives p us u := fun p d => d.loosen p.rank_le
  induction h with
  | literal h => exact ⟨_, derives_of_operand? h, rfl⟩
  | dropped _ ih => exact ih hproper
  | kept hopening hclosing _ ih =>
    obtain ⟨u, d, hu⟩ := ih hproper
    exact ⟨.group u, .group hopening (hloose _ d) hclosing, hu⟩
  | @unary _ op _ _ _ hopening hclosing _ ih =>
    obtain ⟨hop, hproper⟩ := hproper
    obtain ⟨u, d, hu⟩ := ih hproper
    have dsigned : Derives .unary _ (.unary op u) := .signed hop (hloose _ d)
    refine ⟨.group (.unary op u), .group hopening (dsigned.loosen (Nat.zero_le _)) hclosing, ?_⟩
    rw [ungrouped, ungrouped, ungrouped, hu]
  | @binary _ op _ _ _ _ _ hopening hclosing _ _ ihl ihr =>
    obtain ⟨⟨l, hop⟩, hleft, hright⟩ := hproper
    obtain ⟨u, dl, hu⟩ := ihl hleft
    obtain ⟨v, dr, hv⟩ := ihr hright
    have dchain : Derives (.level l) _ (.binary u op v) := .chain (hloose _ dl) hop (hloose _ dr)
    refine ⟨.group (.binary u op v), .group hopening (dchain.loosen (Nat.zero_le _)) hclosing, ?_⟩
    rw [ungrouped, ungrouped, ungrouped, hu, hv]

/-- What is enclosed is read as a single expression. -/
theorem Enclosed.parseSingle {t : Tree} {ts rest : List Token} (h : Enclosed t ts)
    (hproper : t.Proper) (hend : atEnd rest = true) :
    ∃ u, Tree.parseSingle (ts ++ rest) = .ok u ∧ u.ungrouped = t.ungrouped := by
  obtain ⟨u, d, hu⟩ := h.derives hproper
  refine ⟨u, single_eq_ok_iff.2 ⟨ts, rest, rfl, ?_, .inl hend⟩, hu⟩
  exact d.loosen (Nat.zero_le _)

/-! ## Enclosing what was read -/

/-- The tokens that are no parentheses. -/
def words (ts : List Token) : List Token := ts.filter fun t => !t.isParen

theorem words_append (ts us : List Token) : words (ts ++ us) = words ts ++ words us :=
  List.filter_append ..

theorem words_enclosed {opening closing : Token} (hopening : opening.kind = .leftParen)
    (hclosing : closing.kind = .rightParen) (ts : List Token) :
    words (opening :: (ts ++ [closing])) = words ts := by
  simp [words, Token.isParen, hopening, hclosing]

/-- **A tree can be enclosed with the words that it was read from.** -/
theorem exists_enclosed {p : Phrase} {ts : List Token} {t : Tree} (d : Derives p ts t) :
    ∃ written, Enclosed t written ∧ words written = words ts := by
  let opening : Token := ⟨.leftParen, utf8 "(", .nil, 1⟩
  let closing : Token := ⟨.rightParen, utf8 ")", .nil, 1⟩
  have hliteral : ∀ {tok : Token} {v : Value}, tok.operand? = some v →
      ∃ written, Enclosed (.literal v) written ∧ words written = words [tok] :=
    fun h => ⟨_, .literal h, rfl⟩
  induction d with
  | operand _ ih => exact ih
  | unsigned _ ih => exact ih
  | @chain _ ls rs op _ _ _ _ _ ihl ihr =>
    obtain ⟨wl, hl, hwl⟩ := ihl
    obtain ⟨wr, hr, hwr⟩ := ihr
    have h : Enclosed _ (opening :: (wl ++ op :: wr ++ [closing])) := .binary rfl rfl hl hr
    refine ⟨_, h, ?_⟩
    rw [words_enclosed rfl rfl, words_append, words_append, hwl, ← List.singleton_append,
      words_append, hwr, ← words_append [op], List.singleton_append]
  | @signed op ts _ _ _ ih =>
    obtain ⟨written, h, hwords⟩ := ih
    have h : Enclosed _ (opening :: (op :: written ++ [closing])) := .unary rfl rfl h
    refine ⟨_, h, ?_⟩
    rw [words_enclosed rfl rfl, ← List.singleton_append, words_append, hwords, ← words_append,
      List.singleton_append]
  | group hopening _ hclosing ih =>
    obtain ⟨written, h, hwords⟩ := ih
    exact ⟨written, .dropped h, by rw [words_enclosed hopening hclosing, hwords]⟩
  | _ h => exact hliteral (by simp [Token.operand?, h])

/-- The trees that are read from tokens, as a single expression or in a program. -/
def ReadFrom (tokens : List Token) (t : Tree) : Prop :=
  Tree.parseSingle tokens = .ok t ∨ t ∈ (parseProgram tokens).trees

theorem ReadFrom.exists_derives {tokens : List Token} {t : Tree} (h : ReadFrom tokens t) :
    ∃ used, used <:+: tokens ∧ Derives .expression used t := by
  rcases h with h | h
  · obtain ⟨used, rest, hsplit, d, -⟩ := single_eq_ok_iff.1 h
    exact ⟨used, ⟨[], rest, hsplit.symm⟩, d⟩
  · rw [parseProgram_eq] at h
    exact derives_of_mem_trees _ tokens t h

/-- **Parentheses that keep together what belongs together change nothing.** A tree has the value or
the fault that it has without its groups. A tree that was read from tokens can be written with the
same words and a pair of parentheses around every operator and its operands; and however it is
written so, it is read as the same tree, groups apart, with the same value or fault. -/
theorem parentheses_neutral :
    (∀ t : Tree, t.ungrouped.eval = t.eval) ∧
    ∀ (tokens : List Token) (t : Tree), ReadFrom tokens t →
      (∃ used written, used <:+: tokens ∧ Derives .expression used t ∧ Enclosed t written ∧
        words written = words used) ∧
      ∀ written rest, Enclosed t written → atEnd rest = true →
        ∃ u, Tree.parseSingle (written ++ rest) = .ok u ∧ u.ungrouped = t.ungrouped ∧
          u.eval = t.eval := by
  refine ⟨eval_ungrouped, fun tokens t hread => ?_⟩
  obtain ⟨used, hused, d⟩ := hread.exists_derives
  constructor
  · obtain ⟨written, henclosed, hwords⟩ := exists_enclosed d
    exact ⟨used, written, hused, d, henclosed, hwords⟩
  · intro written rest henclosed hend
    obtain ⟨u, hparse, hu⟩ := henclosed.parseSingle d.proper hend
    exact ⟨u, hparse, hu, by rw [← eval_ungrouped u, hu, eval_ungrouped]⟩

/-- `nil == !true != false`, written as `((nil == (!true)) != false)`. -/
theorem parentheses_neutral_chain :
    let tok (k : TokenKind) : Token := ⟨k, [], .nil, 1⟩
    let tokens := [tok .nilWord, tok .equalEqual, tok .bang, tok .trueWord, tok .bangEqual,
      tok .falseWord]
    let written := [tok .leftParen, tok .leftParen, tok .nilWord, tok .equalEqual,
      tok .leftParen, tok .bang, tok .trueWord, tok .rightParen, tok .rightParen,
      tok .bangEqual, tok .falseWord, tok .rightParen]
    let t : Tree := .binary
      (.binary (.literal .nil) (tok .equalEqual) (.unary (tok .bang) (.literal (.bool true))))
      (tok .bangEqual) (.literal (.bool false))
    ReadFrom tokens t ∧ Enclosed t written ∧ words written = tokens ∧
      ∃ u, Tree.parseSingle (written ++ [tok .eof]) = .ok u ∧ u.ungrouped = t.ungrouped ∧
        u.eval = t.eval := by
  intro tok tokens written t
  have hread : ReadFrom tokens t := .inl rfl
  have hsign : Enclosed (.unary (tok .bang) (.literal (.bool true)))
      [tok .leftParen, tok .bang, tok .trueWord, tok .rightParen] :=
    .unary rfl rfl (.literal rfl)
  have hequality : Enclosed
      (.binary (.literal .nil) (tok .equalEqual) (.unary (tok .bang) (.literal (.bool true))))
      [tok .leftParen, tok .nilWord, tok .equalEqual, tok .leftParen, tok .bang, tok .trueWord,
        tok .rightParen, tok .rightParen] :=
    .binary rfl rfl (.literal rfl) hsign
  have hwritten : Enclosed t written := .binary rfl rfl hequality (.literal rfl)
  exact ⟨hread, hwritten, rfl, (parentheses_neutral.2 tokens t hread).2 written _ hwritten rfl⟩

end Tree

end Reckoner
