import Reckoner.Proofs.Program

/-!
# Reckoner.Proofs.Cursor — reading from the top down, by a cursor

The grammar can be read by a procedure for each of its phrases, which calls the procedures of the
parts. The procedures share the token list and a cursor, the number of tokens used up. The cursor
may be anywhere: behind the last token an end mark is seen. Nothing about these definitions says
that a call ever returns; each call may go on to `depth` calls below it, and `none` is what is left
of a call that would need more.

The cursor moves by `advance` alone. So it never goes back and never gets past the first end mark,
however deep the calls are and wherever it starts (`moves_phrase_chain`, `moves_single`,
`moves_itemsOnto`).
-/

namespace Reckoner

theorem Tree.isEnd_current (endLine : Int) (rest : List Token) :
    (current endLine rest).isEnd = atEnd rest := by
  cases rest <;> rfl

namespace Descent

open Grammar (Level Phrase)
open Reckoner.Tree (endLineOf)

/-! ## The procedures -/

section
variable (tokens : List Token)

/-- The token at the cursor; from the end of the list on, an end mark. -/
def current (pos : Nat) : Token :=
  if h : pos < tokens.length then tokens[pos] else .endMark (endLineOf tokens)

/-- The token that the cursor went past last; an end mark where there is none. -/
def previous (pos : Nat) : Token :=
  if h : pos ≠ 0 ∧ pos ≤ tokens.length then tokens[pos - 1] else .endMark (endLineOf tokens)

/-- Is the cursor at an end mark? -/
def atEnd (pos : Nat) : Bool := (current tokens pos).isEnd

/-- Moves the cursor on by a token, but never past an end mark. -/
def advance (pos : Nat) : Nat := if atEnd tokens pos then pos else pos + 1

/-- Is the cursor at a token of one of these kinds? An end mark is never seen. -/
def sees (kinds : List TokenKind) (pos : Nat) : Bool :=
  !atEnd tokens pos && kinds.contains (current tokens pos).kind

mutual

/-- Reads a phrase from the cursor on. -/
def phrase : Nat → Phrase → Nat → Option (Except Diagnostic Tree × Nat)
  | 0, _, _ => none
  | depth + 1, .level l, pos => do
    match ← phrase depth l.operand pos with
    | (.error d, pos) => return (.error d, pos)
    | (.ok left, pos) => chain depth l left pos
  | depth + 1, .unary, pos =>
    if sees tokens [.bang, .minus] pos then do
      let op := previous tokens (advance tokens pos)
      match ← phrase depth .unary (advance tokens pos) with
      | (.error d, pos) => return (.error d, pos)
      | (.ok t, pos) => return (.ok (.unary op t), pos)
    else phrase depth .primary pos
  | depth + 1, .primary, pos =>
    match (current tokens pos).operand? with
    | some v => some (.ok (.literal v), advance tokens pos)
    | none =>
      if sees tokens [.leftParen] pos then do
        match ← phrase depth .expression (advance tokens pos) with
        | (.error d, pos) => return (.error d, pos)
        | (.ok t, pos) =>
          if sees tokens [.rightParen] pos then return (.ok (.group t), advance tokens pos)
          else return (.error ((current tokens pos).misplaced .closingParen), pos)
      else some (.error ((current tokens pos).misplaced .expression), pos)

/-- Reads on behind an operand of a level, as long as one of its operators follows. -/
def chain : Nat → Level → Tree → Nat → Option (Except Diagnostic Tree × Nat)
  | 0, _, _, _ => none
  | depth + 1, l, left, pos =>
    if sees tokens l.operators pos then do
      let op := previous tokens (advance tokens pos)
      match ← phrase depth l.operand (advance tokens pos) with
      | (.error d, pos) => return (.error d, pos)
      | (.ok right, pos) => chain depth l (.binary left op right) pos
    else some (.ok left, pos)

end

/-- Skips tokens until the cursor is behind a semicolon or at the start of a statement. -/
def skip : Nat → Nat → Option Nat
  | 0, _ => none
  | depth + 1, pos =>
    if atEnd tokens pos then some pos
    else if (previous tokens pos).kind = .semicolon then some pos
    else if (current tokens pos).kind.startsStatement then some pos
    else skip depth (advance tokens pos)

/-- Finds the place where reading goes on after a fault at the cursor. -/
def resume (depth pos : Nat) : Option Nat := skip tokens depth (advance tokens pos)

/-- Reads an item of a program. -/
def item (depth pos : Nat) : Option (Except Diagnostic Tree × Nat) := do
  match ← phrase tokens depth .expression pos with
  | (.error d, pos) => return (.error d, pos)
  | (.ok t, pos) =>
    if sees tokens [.semicolon] pos then return (.ok t, advance tokens pos)
    else if atEnd tokens pos then return (.ok t, pos)
    else return (.error ((current tokens pos).misplaced .separator), pos)

/-- Reads a single expression, which a semicolon may follow, up to the end. -/
def single (depth pos : Nat) : Option (Except Diagnostic Tree × Nat) := do
  match ← phrase tokens depth .expression pos with
  | (.error d, pos) => return (.error d, ← resume tokens depth pos)
  | (.ok t, pos) =>
    let pos := if sees tokens [.semicolon] pos then advance tokens pos else pos
    if atEnd tokens pos then return (.ok t, pos)
    else return (.error ((current tokens pos).misplaced .endOfInput), ← resume tokens depth pos)

/-- Reads items until the cursor is at the end, behind those found so far. -/
def itemsOnto : Nat → Tree.Program → Nat → Option (Tree.Program × Nat)
  | 0, _, _ => none
  | depth + 1, found, pos =>
    if atEnd tokens pos then some (found, pos)
    else do
      match ← item tokens depth pos with
      | (.ok t, pos) => itemsOnto depth { found with trees := found.trees ++ [t] } pos
      | (.error d, pos) =>
        itemsOnto depth { found with diagnostics := found.diagnostics ++ [d] }
          (← resume tokens depth pos)

/-- Reads all items from the cursor on. -/
def program (depth pos : Nat) : Option (Tree.Program × Nat) := itemsOnto tokens depth .empty pos

end

/-! ## Where the cursor stands -/

/-- `Faces tokens pos rest`: the tokens from the cursor on are `rest`. -/
def Faces (tokens : List Token) (pos : Nat) (rest : List Token) : Prop :=
  ∃ used, tokens = used ++ rest ∧ pos = used.length

section Faces
variable {tokens rest : List Token} {tok : Token} {pos : Nat}

theorem Faces.start (tokens : List Token) : Faces tokens 0 tokens := ⟨[], rfl, rfl⟩

theorem Faces.next (h : Faces tokens pos (tok :: rest)) : Faces tokens (pos + 1) rest := by
  obtain ⟨used, rfl, rfl⟩ := h
  exact ⟨used ++ [tok], by simp, by simp⟩

theorem Faces.length_le (h : Faces tokens pos rest) : rest.length ≤ tokens.length := by
  obtain ⟨used, rfl, rfl⟩ := h
  simp

theorem Faces.unique {pos' : Nat} (h : Faces tokens pos rest) (h' : Faces tokens pos' rest) :
    pos = pos' := by
  obtain ⟨used, rfl, rfl⟩ := h
  obtain ⟨used', heq, rfl⟩ := h'
  rw [List.append_cancel_right heq]

theorem Faces.drop (h : pos ≤ tokens.length) : Faces tokens pos (tokens.drop pos) :=
  ⟨tokens.take pos, (List.take_append_drop pos tokens).symm, (List.length_take_of_le h).symm⟩

theorem Faces.eq_drop (h : Faces tokens pos rest) : rest = tokens.drop pos := by
  obtain ⟨used, rfl, rfl⟩ := h
  simp

theorem Faces.add_length (h : Faces tokens pos rest) :
    pos + rest.length = tokens.length := by
  obtain ⟨used, rfl, rfl⟩ := h
  simp

/-- Wherever the cursor stands, it sees the first of the tokens left. -/
theorem current_eq_drop (tokens : List Token) (pos : Nat) :
    current tokens pos = Tree.current (endLineOf tokens) (tokens.drop pos) := by
  unfold current
  split
  · next hlt =>
    rw [List.drop_eq_getElem_cons hlt]
    rfl
  · next hge =>
    rw [List.drop_eq_nil_of_le (Nat.not_lt.1 hge)]
    rfl

theorem Faces.current (h : Faces tokens pos rest) :
    current tokens pos = Tree.current (endLineOf tokens) rest := by
  rw [current_eq_drop, ← h.eq_drop]

theorem Faces.previous (h : Faces tokens pos (tok :: rest)) : previous tokens (pos + 1) = tok := by
  obtain ⟨used, rfl, rfl⟩ := h
  simp [Descent.previous]

theorem Faces.atEnd (h : Faces tokens pos rest) : atEnd tokens pos = Tree.atEnd rest := by
  rw [Descent.atEnd, h.current, Tree.isEnd_current]

theorem Faces.advance (h : Faces tokens pos (tok :: rest)) (hend : tok.isEnd = false) :
    advance tokens pos = pos + 1 := by
  have hat : Descent.atEnd tokens pos = false := by rw [h.atEnd]; exact hend
  simp [Descent.advance, hat]

theorem Faces.advance_end (h : Faces tokens pos rest) (hend : Tree.atEnd rest = true) :
    Descent.advance tokens pos = pos := by
  simp [Descent.advance, h.atEnd, hend]

/-- Looking at the cursor: either a token of these kinds is there, and the cursor can go past it, or
there is none. -/
theorem Faces.sees_cases (h : Faces tokens pos rest) (kinds : List TokenKind)
    (hkinds : .eof ∉ kinds) :
    (sees tokens kinds pos = true ∧ ∃ tok more, rest = tok :: more ∧ tok.kind ∈ kinds ∧
      Descent.advance tokens pos = pos + 1 ∧ Faces tokens (pos + 1) more ∧
      Descent.previous tokens (pos + 1) = tok) ∨
    (sees tokens kinds pos = false ∧ ∀ tok ∈ rest.head?, tok.kind ∉ kinds) := by
  rcases rest with _ | ⟨tok, more⟩
  · refine .inr ⟨?_, by simp⟩
    simp [sees, h.atEnd, Tree.atEnd]
  · have hcurrent : Descent.current tokens pos = tok := h.current
    by_cases hkind : tok.kind ∈ kinds
    · have hend : tok.isEnd = false := by
        have : tok.kind ≠ .eof := fun heof => hkinds (heof ▸ hkind)
        simpa [Token.isEnd] using this
      refine .inl ⟨?_, tok, more, rfl, hkind, h.advance hend, h.next, h.previous⟩
      simp [sees, Descent.atEnd, hcurrent, hend, hkind]
    · refine .inr ⟨?_, by simpa using hkind⟩
      simp [sees, hcurrent, hkind]

end Faces

/-! ## The cursor goes forward -/

/-- The position of the first end mark; behind the last token if there is none. -/
def endOf (tokens : List Token) : Nat := tokens.findIdx Token.isEnd

/-- `Moves tokens pos pos'`: the cursor has not gone back, nor past the first end mark. -/
def Moves (tokens : List Token) (pos pos' : Nat) : Prop :=
  pos ≤ pos' ∧ (pos ≤ endOf tokens → pos' ≤ endOf tokens)

section Moves
variable {tokens : List Token} {pos pos' pos'' : Nat}

theorem Moves.refl (tokens : List Token) (pos : Nat) : Moves tokens pos pos :=
  ⟨Nat.le_refl _, id⟩

theorem Moves.trans (h : Moves tokens pos pos') (h' : Moves tokens pos' pos'') :
    Moves tokens pos pos'' :=
  ⟨Nat.le_trans h.1 h'.1, fun hpos => h'.2 (h.2 hpos)⟩

theorem atEnd_endOf (tokens : List Token) : atEnd tokens (endOf tokens) = true := by
  unfold atEnd current
  split
  · next h => exact List.findIdx_getElem
  · rfl

theorem atEnd_of_lt (h : pos < endOf tokens) : atEnd tokens pos = false := by
  have hlt : pos < tokens.length := Nat.lt_of_lt_of_le h List.findIdx_le_length
  simpa [atEnd, current, hlt] using List.not_of_lt_findIdx h

/-- Up to the first end mark, the end is only there. -/
theorem atEnd_iff (h : pos ≤ endOf tokens) : atEnd tokens pos = true ↔ pos = endOf tokens := by
  constructor
  · intro hend
    rcases Nat.lt_or_eq_of_le h with hlt | heq
    · rw [atEnd_of_lt hlt] at hend
      cases hend
    · exact heq
  · rintro rfl
    exact atEnd_endOf tokens

theorem advance_of_lt (h : pos < endOf tokens) : advance tokens pos = pos + 1 :=
  if_neg (by simp [atEnd_of_lt h])

theorem previous_succ (h : pos < endOf tokens) :
    previous tokens (pos + 1) = current tokens pos := by
  have hlt : pos < tokens.length := Nat.lt_of_lt_of_le h List.findIdx_le_length
  simp [previous, current, hlt, Nat.succ_le_of_lt hlt]

theorem moves_advance (tokens : List Token) (pos : Nat) :
    Moves tokens pos (advance tokens pos) := by
  cases hend : atEnd tokens pos with
  | true =>
    have hstay : advance tokens pos = pos := if_pos hend
    rw [hstay]
    exact .refl tokens pos
  | false =>
    have hgo : advance tokens pos = pos + 1 := if_neg (by simp [hend])
    rw [hgo]
    refine ⟨Nat.le_succ pos, fun hle => ?_⟩
    have hne : pos ≠ endOf tokens := by
      rintro rfl
      rw [atEnd_endOf] at hend
      cases hend
    exact Nat.lt_of_le_of_ne hle hne

theorem moves_some {α : Type} {a b : α} (h : some (a, pos) = some (b, pos')) :
    Moves tokens pos pos' := by
  cases h
  exact .refl tokens pos

/-- A procedure that calls another one first. -/
theorem moves_bind {α β : Type} {run : Option (α × Nat)} {next : α × Nat → Option (β × Nat)} {b : β}
    (hrun : ∀ {a stop}, run = some (a, stop) → Moves tokens pos stop)
    (hnext : ∀ {a stop}, next (a, stop) = some (b, pos') → Moves tokens stop pos')
    (h : (run >>= next) = some (b, pos')) : Moves tokens pos pos' := by
  obtain ⟨⟨a, stop⟩, hcall, hbehind⟩ := Option.bind_eq_some_iff.1 h
  exact (hrun hcall).trans (hnext hbehind)

/-- What is found behind the next token. -/
theorem Moves.behind (h : Moves tokens (advance tokens pos) pos') : Moves tokens pos pos' :=
  (moves_advance tokens pos).trans h

/-- **Whatever a procedure reads, its cursor goes forward**: by the depth of the calls, for phrases
and chains at once. -/
theorem moves_phrase_chain (depth : Nat) :
    (∀ {p pos answer pos'}, phrase tokens depth p pos = some (answer, pos') →
      Moves tokens pos pos') ∧
    (∀ {l left pos answer pos'}, chain tokens depth l left pos = some (answer, pos') →
      Moves tokens pos pos') := by
  induction depth with
  | zero => exact ⟨fun h => by simp [phrase] at h, fun h => by simp [chain] at h⟩
  | succ depth ih =>
    obtain ⟨ihphrase, ihchain⟩ := ih
    constructor
    · intro p pos answer pos' h
      match p with
      | .level l =>
        refine moves_bind ihphrase ?_ h
        rintro (d | t) stop hnext
        · exact moves_some hnext
        · exact ihchain hnext
      | .unary =>
        rw [phrase] at h
        split at h
        · refine .behind (moves_bind ihphrase ?_ h)
          rintro (d | t) stop hnext
          · exact moves_some hnext
          · exact moves_some hnext
        · exact ihphrase h
      | .primary =>
        rw [phrase] at h
        split at h
        · exact .behind (moves_some h)
        split at h
        · refine .behind (moves_bind ihphrase ?_ h)
          rintro (d | t) stop hnext
          · exact moves_some hnext
          · simp only at hnext
            split at hnext
            · exact .behind (moves_some hnext)
            · exact moves_some hnext
        · exact moves_some h
    · intro l left pos answer pos' h
      rw [chain] at h
      split at h
      · refine .behind (moves_bind ihphrase ?_ h)
        rintro (d | t) stop hnext
        · exact moves_some hnext
        · exact ihchain hnext
      · exact moves_some h

theorem moves_skip {depth : Nat} (h : skip tokens depth pos = some pos') :
    Moves tokens pos pos' := by
  induction depth generalizing pos with
  | zero => cases h
  | succ depth ih =>
    rw [skip] at h
    split at h
    · cases h
      exact .refl tokens _
    split at h
    · cases h
      exact .refl tokens _
    split at h
    · cases h
      exact .refl tokens _
    · exact .behind (ih h)

theorem moves_resume {depth : Nat} (h : resume tokens depth pos = some pos') :
    Moves tokens pos pos' :=
  .behind (moves_skip h)

theorem moves_item {depth : Nat} {answer : Except Diagnostic Tree}
    (h : item tokens depth pos = some (answer, pos')) : Moves tokens pos pos' := by
  refine moves_bind (moves_phrase_chain depth).1 ?_ h
  rintro (d | t) stop hnext
  · exact moves_some hnext
  · simp only at hnext
    split at hnext
    · exact .behind (moves_some hnext)
    split at hnext
    · exact moves_some hnext
    · exact moves_some hnext

theorem moves_single {depth : Nat} {answer : Except Diagnostic Tree}
    (h : single tokens depth pos = some (answer, pos')) : Moves tokens pos pos' := by
  refine moves_bind (moves_phrase_chain depth).1 ?_ h
  rintro (d | t) stop hnext
  · obtain ⟨next, hresume, hnext⟩ := Option.bind_eq_some_iff.1 hnext
    exact (moves_resume hresume).trans (moves_some hnext)
  · simp only at hnext
    have hstop : Moves tokens stop
        (if sees tokens [.semicolon] stop then advance tokens stop else stop) := by
      split
      · exact moves_advance tokens stop
      · exact .refl tokens stop
    generalize (if sees tokens [.semicolon] stop then advance tokens stop else stop) = behind
      at hnext hstop
    refine hstop.trans ?_
    split at hnext
    · exact moves_some hnext
    · obtain ⟨next, hresume, hnext⟩ := Option.bind_eq_some_iff.1 hnext
      exact (moves_resume hresume).trans (moves_some hnext)

theorem moves_itemsOnto {depth : Nat} {found found' : Tree.Program}
    (h : itemsOnto tokens depth found pos = some (found', pos')) : Moves tokens pos pos' := by
  induction depth generalizing found pos with
  | zero => cases h
  | succ depth ih =>
    rw [itemsOnto] at h
    split at h
    · exact moves_some h
    · refine moves_bind moves_item ?_ h
      rintro (d | t) stop hnext
      · obtain ⟨next, hresume, hnext⟩ := Option.bind_eq_some_iff.1 hnext
        exact (moves_resume hresume).trans (ih hnext)
      · exact ih hnext

end Moves

end Descent

end Reckoner
