import Reckoner.Proofs.Reading

/-!
# Reckoner.Proofs.Program — programs are read item by item

Reading a program is a sequence of turns. A turn reads one item and, if that fails, finds the place
where reading goes on; it gives a tree or a diagnostic and uses up a token at least. The equations
of `readProgram` below say this without the lists that the loop carries along.

Main statement: `parseProgram_exact`. A program is read without a diagnostic exactly when the
grammar derives it, and then to the trees of its expressions.
-/

namespace Reckoner.Tree

open Grammar (Derives Phrase)

/-! ## Turns -/

/-- One turn of reading a program: an item and, behind a fault, the way to where reading goes on. -/
def turn (endLine : Int) (tokens : List Token) : Except Diagnostic Tree × List Token :=
  match readItem endLine tokens with
  | (.ok t, rest) => (.ok t, rest)
  | (.error d, rest) => (.error d, recover rest)

theorem turn_of_error {endLine : Int} {tokens rest : List Token} {d : Diagnostic}
    (hread : read endLine tokens = (.error d, rest)) :
    turn endLine tokens = (.error d, recover rest) := by
  simp [turn, readItem, hread]

theorem turn_of_separated {endLine : Int} {tokens more : List Token} {semicolon : Token} {t : Tree}
    (hread : read endLine tokens = (.ok t, semicolon :: more))
    (hsemi : semicolon.kind = .semicolon) : turn endLine tokens = (.ok t, more) := by
  simp [turn, readItem, hread, hsemi]

/-- An expression with neither a semicolon nor the end behind it is a fault. -/
theorem turn_of_unseparated {endLine : Int} {tokens more : List Token} {tok : Token} {t : Tree}
    (hread : read endLine tokens = (.ok t, tok :: more)) (hsemi : tok.kind ≠ .semicolon)
    (hend : tok.isEnd = false) :
    turn endLine tokens = (.error (tok.misplaced .separator), recover (tok :: more)) := by
  simp [turn, readItem, hread, hsemi, hend]

theorem skipFrom_suffix (previous : TokenKind) (tokens : List Token) :
    skipFrom previous tokens <:+ tokens := by
  induction tokens generalizing previous with
  | nil => exact List.suffix_refl _
  | cons tok rest ih =>
    unfold skipFrom
    split
    · exact List.suffix_refl _
    · exact (ih _).trans (List.suffix_cons _ _)

/-- Recovery in front of a token that is no end mark goes past it. -/
theorem recover_cons_suffix {tok : Token} {rest : List Token} (h : tok.isEnd = false) :
    recover (tok :: rest) <:+ rest := by
  simp only [recover, h, Bool.false_eq_true, if_false]
  exact skipFrom_suffix _ _

theorem recover_suffix (tokens : List Token) : recover tokens <:+ tokens := by
  cases tokens with
  | nil => exact List.suffix_refl _
  | cons tok rest =>
    cases h : tok.isEnd with
    | true => simp [recover, h]
    | false => exact (recover_cons_suffix h).trans (List.suffix_cons _ _)

/-- A turn uses up its first token. -/
theorem turn_suffix (endLine : Int) {tok : Token} (rest : List Token) (h : tok.isEnd = false) :
    (turn endLine (tok :: rest)).2 <:+ rest := by
  have hsuffix := readItem_suffix endLine (tok :: rest)
  rcases hitem : readItem endLine (tok :: rest) with ⟨d | t, more⟩
  · simp only [turn, hitem] at hsuffix ⊢
    rcases List.suffix_cons_iff.mp hsuffix with rfl | hmore
    · exact recover_cons_suffix h
    · exact (recover_suffix more).trans hmore
  · have hlen := length_readItem_lt (t := t) (by rw [hitem])
    simp only [turn, hitem] at hsuffix hlen ⊢
    rcases List.suffix_cons_iff.mp hsuffix with rfl | hmore
    · exact absurd hlen (Nat.not_succ_le_self _)
    · exact hmore

/-! ## Programs as sequences of turns -/

namespace Program

/-- Nothing was found. -/
def empty : Program := ⟨[], []⟩

/-- The program with the outcome of a turn in front. -/
def push (p : Program) (outcome : Except Diagnostic Tree) : Program :=
  match outcome with
  | .ok t => { p with trees := t :: p.trees }
  | .error d => { p with diagnostics := d :: p.diagnostics }

instance : Append Program :=
  ⟨fun p q => ⟨p.trees ++ q.trees, p.diagnostics ++ q.diagnostics⟩⟩

theorem append_def (p q : Program) :
    p ++ q = ⟨p.trees ++ q.trees, p.diagnostics ++ q.diagnostics⟩ := rfl

@[simp]
theorem empty_append (p : Program) : empty ++ p = p := rfl

@[simp]
theorem append_empty (p : Program) : p ++ empty = p := by
  simp [append_def, empty]

theorem push_append (p q : Program) (outcome : Except Diagnostic Tree) :
    p.push outcome ++ q = (p ++ q).push outcome := by
  cases outcome <;> rfl

end Program

/-- Reads a program from its first token; gives the tokens left as well. -/
def readProgram (endLine : Int) (tokens : List Token) : Program × List Token :=
  readProgramOnto endLine [] [] tokens

@[simp]
theorem readProgram_nil (endLine : Int) : readProgram endLine [] = (.empty, []) := by
  simp [readProgram, readProgramOnto, Program.empty]

theorem readProgram_end {endLine : Int} {tok : Token} {rest : List Token}
    (h : tok.isEnd = true) : readProgram endLine (tok :: rest) = (.empty, tok :: rest) := by
  simp [readProgram, readProgramOnto, Program.empty, h]

/-- The loop takes a turn and puts its outcome on top of what was found. -/
theorem readProgramOnto_turn {endLine : Int} {tok : Token} {rest : List Token} {trees : List Tree}
    {diagnostics : List Diagnostic} (h : tok.isEnd = false) :
    readProgramOnto endLine trees diagnostics (tok :: rest)
      = match turn endLine (tok :: rest) with
        | (.ok t, more) => readProgramOnto endLine (t :: trees) diagnostics more
        | (.error d, more) => readProgramOnto endLine trees (d :: diagnostics) more := by
  rw [readProgramOnto]
  simp only [h, Bool.false_eq_true, dite_false]
  unfold turn
  split
  next heq => simp [heq]
  next heq => simp [heq]

/-- What the loop found before stands in front of what it finds. -/
theorem readProgramOnto_eq (endLine : Int) (trees : List Tree) (diagnostics : List Diagnostic)
    (tokens : List Token) :
    readProgramOnto endLine trees diagnostics tokens
      = (⟨trees.reverse, diagnostics.reverse⟩ ++ (readProgram endLine tokens).1,
          (readProgram endLine tokens).2) := by
  match tokens with
  | [] => simp [readProgram, readProgramOnto, Program.append_def]
  | tok :: rest =>
    cases h : tok.isEnd with
    | true => simp [readProgram, readProgramOnto, Program.append_def, h]
    | false =>
      rw [readProgram, readProgramOnto_turn h, readProgramOnto_turn h]
      rcases hturn : turn endLine (tok :: rest) with ⟨outcome, more⟩
      have hlen : more.length ≤ rest.length := by
        simpa [hturn] using (turn_suffix endLine rest h).length_le
      cases outcome with
      | ok t =>
        simp only
        rw [readProgramOnto_eq, readProgramOnto_eq endLine [t]]
        simp [Program.append_def]
      | error d =>
        simp only
        rw [readProgramOnto_eq, readProgramOnto_eq endLine [] [d]]
        simp [Program.append_def]
termination_by tokens.length
decreasing_by all_goals simp only [List.length_cons]; omega

/-- A program is the outcome of its first turn in front of the program behind it. -/
theorem readProgram_turn {endLine : Int} {tok : Token} {rest more : List Token}
    {outcome : Except Diagnostic Tree} (h : tok.isEnd = false)
    (hturn : turn endLine (tok :: rest) = (outcome, more)) :
    readProgram endLine (tok :: rest)
      = ((readProgram endLine more).1.push outcome, (readProgram endLine more).2) := by
  rw [readProgram, readProgramOnto_turn h, hturn]
  cases outcome with
  | ok t => exact readProgramOnto_eq endLine [t] [] more
  | error d => exact readProgramOnto_eq endLine [] [d] more

theorem parseProgram_eq (tokens : List Token) :
    parseProgram tokens = (readProgram (endLineOf tokens) tokens).1 := rfl

/-! ## The language of programs -/

/-- An item is read exactly when an expression stands in front, behind it a semicolon, which is
used up, or the end. -/
theorem readItem_eq_ok_iff {endLine : Int} {tokens more : List Token} {t : Tree} :
    readItem endLine tokens = (.ok t, more) ↔
      ∃ used, Derives .expression used t ∧
        ((∃ semicolon, semicolon.kind = .semicolon ∧ tokens = used ++ semicolon :: more) ∨
          (tokens = used ++ more ∧ atEnd more = true)) := by
  constructor
  · intro hitem
    rcases hread : read endLine tokens with ⟨_ | u, rest⟩
    · simp [readItem, hread] at hitem
    · obtain ⟨used, heq, d, _⟩ := read_eq_ok_iff.mp hread
      rcases rest with _ | ⟨tok, rest⟩
      · simp only [readItem, hread, Prod.mk.injEq, Except.ok.injEq] at hitem
        obtain ⟨rfl, rfl⟩ := hitem
        exact ⟨used, d, .inr ⟨heq, rfl⟩⟩
      · by_cases hs : tok.kind = .semicolon
        · simp only [readItem, hread, hs, if_true, Prod.mk.injEq, Except.ok.injEq] at hitem
          obtain ⟨rfl, rfl⟩ := hitem
          exact ⟨used, d, .inl ⟨tok, hs, heq⟩⟩
        · cases hend : tok.isEnd with
          | false => simp [readItem, hread, hs, hend] at hitem
          | true =>
            simp only [readItem, hread, hs, hend, if_false, if_true, Prod.mk.injEq,
              Except.ok.injEq] at hitem
            obtain ⟨rfl, rfl⟩ := hitem
            exact ⟨used, d, .inr ⟨heq, hend⟩⟩
  · rintro ⟨used, d, ⟨semicolon, hs, rfl⟩ | ⟨rfl, hend⟩⟩
    · have hread : read endLine (used ++ semicolon :: more) = (.ok t, semicolon :: more) :=
        read_eq_ok_iff.mpr ⟨used, rfl, d, stops_of_kind (.inl hs)⟩
      simp [readItem, hread, hs]
    · have hread : read endLine (used ++ more) = (.ok t, more) :=
        read_eq_ok_iff.mpr ⟨used, rfl, d, stops_of_atEnd hend⟩
      rcases more with _ | ⟨tok, more⟩
      · simp only [readItem, hread]
      · have hkind : tok.kind = .eof := by simpa [atEnd, Token.isEnd] using hend
        simp [readItem, hread, hkind, Token.isEnd]

/-- A turn that gives a tree is an item. -/
theorem turn_eq_ok_iff {endLine : Int} {tokens more : List Token} {t : Tree} :
    turn endLine tokens = (.ok t, more) ↔ readItem endLine tokens = (.ok t, more) := by
  unfold turn
  split <;> simp_all

/-- An item in front of a program is one turn. -/
theorem readProgram_item {endLine : Int} {used rest more : List Token} {t : Tree}
    (d : Derives .expression used t) (hitem : readItem endLine (used ++ rest) = (.ok t, more)) :
    (readProgram endLine (used ++ rest)).1 = (readProgram endLine more).1.push (.ok t) := by
  rcases used with _ | ⟨tok, used⟩
  · exact absurd rfl d.ne_nil
  · have hkind : tok.kind ≠ .eof := (d.kind_ne tok (by simp)).1
    rw [List.cons_append] at hitem ⊢
    rw [readProgram_turn (by simpa [Token.isEnd] using hkind) (turn_eq_ok_iff.mpr hitem)]

/-- What the grammar derives in front of an end mark is read to its trees. -/
theorem readProgram_of_grammar {ts : List Token} {trees : List Tree} (h : Grammar.Program ts trees)
    (endLine : Int) {mark : Token} (hmark : mark.kind = .eof) :
    (readProgram endLine (ts ++ [mark])).1 = ⟨trees, []⟩ := by
  have hend : mark.isEnd = true := by simp [Token.isEnd, hmark]
  induction h with
  | empty => rw [List.nil_append, readProgram_end hend]; rfl
  | @last ts t d =>
    have hitem : readItem endLine (ts ++ [mark]) = (.ok t, [mark]) :=
      readItem_eq_ok_iff.mpr ⟨ts, d, .inr ⟨rfl, hend⟩⟩
    rw [readProgram_item d hitem, readProgram_end hend]
    rfl
  | @item ts rest semicolon t trees d hs _ ih =>
    have hitem : readItem endLine (ts ++ semicolon :: (rest ++ [mark])) = (.ok t, rest ++ [mark]) :=
      readItem_eq_ok_iff.mpr ⟨ts, d, .inl ⟨semicolon, hs, rfl⟩⟩
    rw [List.append_assoc, List.cons_append, readProgram_item d hitem, ih]
    rfl

/-- A program without a diagnostic starts with an item, and has none behind it either. -/
theorem item_of_clean {endLine : Int} {tok : Token} {rest : List Token} (h : tok.isEnd = false)
    (hclean : (readProgram endLine (tok :: rest)).1.diagnostics = []) :
    ∃ t more, readItem endLine (tok :: rest) = (.ok t, more) ∧
      (readProgram endLine (tok :: rest)).1 = (readProgram endLine more).1.push (.ok t) ∧
      (readProgram endLine more).1.diagnostics = [] := by
  rcases hturn : turn endLine (tok :: rest) with ⟨d | t, more⟩
  · rw [readProgram_turn h hturn] at hclean
    cases hclean
  · rw [readProgram_turn h hturn] at hclean ⊢
    exact ⟨t, more, turn_eq_ok_iff.mp hturn, rfl, hclean⟩

/-- What is read without a diagnostic in front of an only end mark is derived by the grammar. -/
theorem grammar_of_readProgram {endLine : Int} {ts : List Token} {mark : Token}
    (hts : ∀ tok ∈ ts, tok.kind ≠ .eof) (hmark : mark.kind = .eof)
    (hclean : (readProgram endLine (ts ++ [mark])).1.diagnostics = []) :
    Grammar.Program ts (readProgram endLine (ts ++ [mark])).1.trees := by
  have hend : mark.isEnd = true := by simp [Token.isEnd, hmark]
  -- by the length of the list: what follows the first item is a shorter one
  induction hn : ts.length using Nat.strongRecOn generalizing ts with
  | ind n ih =>
    rcases ts with _ | ⟨tok, ts⟩
    · rw [List.nil_append, readProgram_end hend]
      exact .empty
    · have htok : tok.isEnd = false := by simpa [Token.isEnd] using hts tok (by simp)
      rw [List.cons_append] at hclean ⊢
      obtain ⟨t, more, hitem, hpush, hmore⟩ := item_of_clean htok hclean
      obtain ⟨used, d, hsplit⟩ := readItem_eq_ok_iff.mp hitem
      rw [← List.cons_append] at hsplit
      rw [hpush]
      rcases hsplit with ⟨semicolon, hs, heq⟩ | ⟨heq, hat⟩
      · obtain ⟨behind, hused, hbehind⟩ := append_end_eq hmark d heq
        rcases behind with _ | ⟨tok', behind⟩
        · -- the semicolon would be the mark itself
          cases hbehind
          exact absurd (hs.symm.trans hmark) (by decide)
        · obtain ⟨rfl, rfl⟩ := List.cons.inj hbehind
          rw [hused] at hts hn ⊢
          have hlt : behind.length < n := by
            rw [← hn, List.length_append, List.length_cons]
            omega
          exact .item d hs (ih _ hlt (fun x hx => hts x (by simp [hx])) hmore rfl)
      · obtain ⟨behind, hused, rfl⟩ := append_end_eq hmark d heq
        rw [hused] at hts ⊢
        have hnil := (atEnd_append_end (fun x hx => hts x (by simp [hx])) hmark).mp hat
        rw [hnil, List.nil_append, readProgram_end hend, List.append_nil]
        exact .last d

/-- **Programs are read exactly.** In front of an only end mark there is no diagnostic exactly when
the tokens are a program, so every other token list has one at least; and the trees of a program are
those of its expressions, in order. -/
theorem parseProgram_exact (ts : List Token) (mark : Token) (hts : ∀ tok ∈ ts, tok.kind ≠ .eof)
    (hmark : mark.kind = .eof) :
    ((parseProgram (ts ++ [mark])).diagnostics = [] ↔ ∃ trees, Grammar.Program ts trees) ∧
    ∀ trees, Grammar.Program ts trees → (parseProgram (ts ++ [mark])).trees = trees := by
  rw [parseProgram_eq]
  refine ⟨⟨fun hclean => ⟨_, grammar_of_readProgram hts hmark hclean⟩, ?_⟩, ?_⟩
  · rintro ⟨trees, h⟩
    rw [readProgram_of_grammar h _ hmark]
  · intro trees h
    rw [readProgram_of_grammar h _ hmark]

/-- `nil; !true` are two trees. -/
theorem parseProgram_exact_pair :
    let tok (k : TokenKind) : Token := ⟨k, [], .nil, 1⟩
    let ts := [tok .nilWord, tok .semicolon, tok .bang, tok .trueWord]
    let trees := [.literal .nil, .unary (tok .bang) (.literal (.bool true))]
    (∀ t ∈ ts, t.kind ≠ .eof) ∧ (tok .eof).kind = .eof ∧
      (parseProgram (ts ++ [tok .eof])).diagnostics = [] ∧
      (parseProgram (ts ++ [tok .eof])).trees = trees := by
  intro tok ts trees
  have hts : ∀ t ∈ ts, t.kind ≠ .eof := by decide
  have first : Derives .expression [tok .nilWord] (.literal .nil) :=
    (Derives.nilWord rfl).loosen (by decide)
  have second : Derives .expression [tok .bang, tok .trueWord]
      (.unary (tok .bang) (.literal (.bool true))) :=
    (Derives.signed (.inl rfl) (.unsigned (.trueWord rfl))).loosen (by decide)
  have program : Grammar.Program ts trees := .item first rfl (.last second)
  obtain ⟨hclean, htrees⟩ := parseProgram_exact ts (tok .eof) hts rfl
  exact ⟨hts, rfl, hclean.mpr ⟨trees, program⟩, htrees trees program⟩

end Reckoner.Tree
