import Reckoner.Tree.Parse
import Reckoner.Proofs.Grammar

/-!
# Reckoner.Proofs.Reading — reading by frames follows the grammar

Reading keeps a stack of open frames, the grammar knows only phrases. The two meet in the rank of a
phrase: a frame says which rank its operand needs (`Frame.wants`), and closing the frames at a level
gives a phrase of that level. From this follow both directions: the tokens of a phrase leave the
frames as they were, with the phrase's tree as the value (`readOnto_of_derives`), and whatever is
read comes from a derivation (`readOnto_sound`).

Main statements: `read_eq_ok_iff` says exactly when `read` succeeds, `parseSingle_exact` that
single expressions are read by the grammar.
-/

namespace Reckoner.Tree

open Grammar

/-! ## One token at a time -/

/-- What becomes of the frames and the value at a token that is taken. -/
inductive Shift (token : Token) : List Frame → Option Tree → List Frame → Option Tree → Prop
  | sign {stack : List Frame} :
      token.kind.isUnary = true → Shift token stack none (.unary token :: stack) none
  | opening {stack : List Frame} :
      token.kind = .leftParen → Shift token stack none (.paren :: stack) none
  | operand {stack : List Frame} {v : Value} :
      token.operand? = some v → Shift token stack none stack (some (.literal v))
  | operator {stack outer : List Frame} {value left : Tree} {level : Nat} :
      token.kind.level? = some level → close level stack value = (outer, left) →
      Shift token stack (some value) (.binary left token :: outer) none
  | closing {stack outer : List Frame} {frame : Frame} {value t : Tree} :
      token.kind = .rightParen → close 0 stack value = (frame :: outer, t) →
      Shift token stack (some value) outer (some (.group t))

/-- What is answered at a token that is not taken. -/
inductive Halt (token : Token) : List Frame → Option Tree → Except Diagnostic Tree → Prop
  | done {stack : List Frame} {value t : Tree} :
      token.kind.level? = none → close 0 stack value = ([], t) →
      Halt token stack (some value) (.ok t)
  | noOperand {stack : List Frame} :
      token.kind.isUnary = false → token.kind ≠ .leftParen → token.operand? = none →
      Halt token stack none (.error (token.misplaced .expression))
  | unclosed {stack outer : List Frame} {frame : Frame} {value t : Tree} :
      token.kind.level? = none → token.kind ≠ .rightParen →
      close 0 stack value = (frame :: outer, t) →
      Halt token stack (some value) (.error (token.misplaced .closingParen))

/-- Every token is taken or answered. -/
theorem shift_or_halt (token : Token) (stack : List Frame) (value? : Option Tree) :
    (∃ stack' value?', Shift token stack value? stack' value?') ∨
      ∃ answer, Halt token stack value? answer := by
  cases value? with
  | none =>
    cases hu : token.kind.isUnary with
    | true => exact .inl ⟨_, _, .sign hu⟩
    | false =>
      by_cases hp : token.kind = .leftParen
      · exact .inl ⟨_, _, .opening hp⟩
      · cases hv : token.operand? with
        | some v => exact .inl ⟨_, _, .operand hv⟩
        | none => exact .inr ⟨_, .noOperand hu hp hv⟩
  | some value =>
    cases hl : token.kind.level? with
    | some level => exact .inl ⟨_, _, .operator hl rfl⟩
    | none =>
      rcases hc : close 0 stack value with ⟨_ | ⟨frame, outer⟩, t⟩
      · exact .inr ⟨_, .done hl hc⟩
      · by_cases hp : token.kind = .rightParen
        · exact .inl ⟨_, _, .closing hp hc⟩
        · exact .inr ⟨_, .unclosed hl hp hc⟩

/-- Semicolons and end marks are never taken. -/
theorem halt_of_kind {token : Token} (h : token.kind = .semicolon ∨ token.kind = .eof)
    (stack : List Frame) (value? : Option Tree) : ∃ answer, Halt token stack value? answer := by
  rcases shift_or_halt token stack value? with ⟨stack', value?', hshift⟩ | hhalt
  · exfalso
    cases hshift with
    | sign hu => rcases h with h | h <;> simp [h, TokenKind.isUnary] at hu
    | opening hp => rcases h with h | h <;> simp [h] at hp
    | operand hv => rcases h with h | h <;> simp [Token.operand?, h] at hv
    | operator hl => rcases h with h | h <;> simp [h, TokenKind.level?] at hl
    | closing hp => rcases h with h | h <;> simp [h] at hp
  · exact hhalt

/-- A token with a value is neither an operator in front nor a parenthesis. -/
theorem kind_of_operand? {token : Token} {v : Value} (h : token.operand? = some v) :
    token.kind.isUnary = false ∧ token.kind ≠ .leftParen := by
  unfold Token.operand? at h
  split at h <;> simp_all [TokenKind.isUnary]

theorem readOnto_shift {token : Token} {stack stack' : List Frame} {value? value?' : Option Tree}
    (h : Shift token stack value? stack' value?') (endLine : Int) (rest : List Token) :
    readOnto endLine stack value? (token :: rest) = readOnto endLine stack' value?' rest := by
  cases h with
  | sign hu => simp [readOnto, hu]
  | opening hp => simp [readOnto, hp, TokenKind.isUnary]
  | operand hv =>
    obtain ⟨hu, hp⟩ := kind_of_operand? hv
    simp [readOnto, hu, hp, hv]
  | operator hl hc => simp [readOnto, hl, hc]
  | closing hp hc => simp [readOnto, hp, hc, TokenKind.level?]

theorem readOnto_halt {token : Token} {stack : List Frame} {value? : Option Tree}
    {answer : Except Diagnostic Tree} (h : Halt token stack value? answer) (endLine : Int)
    (rest : List Token) :
    readOnto endLine stack value? (token :: rest) = (answer, token :: rest) := by
  cases h with
  | done hl hc => simp [readOnto, hl, hc]
  | noOperand hu hp hv => simp [readOnto, hu, hp, hv]
  | unclosed hl hp hc => simp [readOnto, hl, hp, hc]

/-! ## What a frame wants -/

/-- The rank that the operand of a frame needs at least. -/
def Frame.wants : Frame → Nat
  | .unary _ => 4
  | .binary _ op => op.kind.level?.getD 0 + 1
  | .paren => 0

/-- May a phrase of this rank be the operand of the innermost frame? -/
def Fits (rank : Nat) : List Frame → Prop
  | [] => True
  | frame :: _ => frame.wants ≤ rank

theorem Fits.mono {r r' : Nat} {stack : List Frame} (h : Fits r stack) (hr : r ≤ r') :
    Fits r' stack := by
  cases stack with
  | nil => trivial
  | cons frame _ => exact Nat.le_trans h hr

theorem wants_binary {l : Level} {op : Token} {left : Tree} (h : op.kind ∈ l.operators) :
    (Frame.binary left op).wants = l.rank + 1 := by
  simp [Frame.wants, level?_eq_some_iff.mpr h]

/-- No frame wants more than a phrase without binary operators. -/
theorem fits_unary (stack : List Frame) : Fits Phrase.unary.rank stack := by
  rcases stack with _ | ⟨_ | ⟨left, op⟩ | _, stack⟩
  · trivial
  · exact Nat.le_refl 4
  · cases h : op.kind.level? with
    | none => simp [Fits, Frame.wants, Phrase.rank, h]
    | some n =>
      obtain ⟨l, rfl, hop⟩ := exists_level h
      simp only [Fits, wants_binary hop, Phrase.rank]
      exact Nat.succ_le_succ l.rank_le
  · exact Nat.zero_le 4

/-- Frames whose operand may be of a level's rank stay open at that level. -/
theorem close_of_fits {l : Level} {stack : List Frame} (h : Fits l.rank stack) (t : Tree) :
    close l.rank stack t = (stack, t) := by
  rcases stack with _ | ⟨_ | ⟨left, op⟩ | _, stack⟩
  · rfl
  · have h4 : 4 ≤ l.rank := h
    have := l.rank_le
    omega
  · have hlt : ¬ l.rank ≤ op.kind.level?.getD 0 := Nat.not_le.mpr h
    simp [close, hlt]
  · rfl

/-! ## What the grammar derives is read -/

/-- The tokens of a phrase are read to its tree: whatever waits in front and follows behind, the
frames afterwards close as if the tree had been the value all along. -/
theorem readOnto_of_derives {p : Phrase} {ts : List Token} {t : Tree} (d : Derives p ts t)
    (endLine : Int) (stack : List Frame) (rest : List Token) (hfits : Fits p.rank stack) :
    ∃ frames value, readOnto endLine stack none (ts ++ rest)
        = readOnto endLine frames (some value) rest ∧
      ∀ level ≤ p.rank, close level frames value = close level stack t := by
  induction d generalizing stack rest with
  | @operand l ts t d ih =>
    have hle : l.rank ≤ l.operand.rank := by rw [rank_operand]; exact Nat.le_succ _
    obtain ⟨frames, value, hread, hclose⟩ := ih stack rest (hfits.mono hle)
    exact ⟨frames, value, hread, fun level h => hclose level (Nat.le_trans h hle)⟩
  | @chain l ls rs op left right dl hop dr ihl ihr =>
    have hlevel := level?_eq_some_iff.mpr hop
    obtain ⟨frames, value, hleft, hclose⟩ := ihl stack (op :: (rs ++ rest)) hfits
    -- the operator closes everything that the left operand has opened, and nothing below it
    have hopen : close l.rank frames value = (stack, left) :=
      (hclose l.rank (Nat.le_refl _)).trans (close_of_fits hfits left)
    have hwants : Fits l.operand.rank (.binary left op :: stack) := by
      rw [rank_operand]
      exact Nat.le_of_eq (wants_binary hop)
    obtain ⟨frames', value', hright, hclose'⟩ := ihr (.binary left op :: stack) rest hwants
    refine ⟨frames', value', ?_, ?_⟩
    · rw [List.append_assoc, List.cons_append, hleft, readOnto_shift (.operator hlevel hopen),
        hright]
    · intro level hle
      rw [hclose' level (Nat.le_trans hle (by rw [rank_operand]; exact Nat.le_succ _))]
      have hle' : level ≤ op.kind.level?.getD 0 := by rw [hlevel]; exact hle
      simp only [close, hle', if_true]
  | @signed op ts t hop d ih =>
    have hsign : op.kind.isUnary = true := by rcases hop with h | h <;> rw [h] <;> rfl
    obtain ⟨frames, value, hread, hclose⟩ := ih (.unary op :: stack) rest (Nat.le_refl 4)
    refine ⟨frames, value, ?_, hclose⟩
    rw [List.cons_append, readOnto_shift (.sign hsign), hread]
  | unsigned d ih =>
    obtain ⟨frames, value, hread, hclose⟩ := ih stack rest (hfits.mono (by decide))
    exact ⟨frames, value, hread, fun level h => hclose level (Nat.le_trans h (by decide))⟩
  | number h | string h | trueWord h | falseWord h | nilWord h =>
    refine ⟨stack, _, readOnto_shift (.operand ?_) endLine rest, fun _ _ => rfl⟩
    simp [Token.operand?, h]
  | @group opening closing ts t hopen d hclosing ih =>
    obtain ⟨frames, value, hread, hclose⟩ :=
      ih (.paren :: stack) (closing :: rest) (Nat.zero_le _)
    have hinner : close 0 frames value = (.paren :: stack, t) := hclose 0 (Nat.zero_le _)
    refine ⟨stack, .group t, ?_, fun _ _ => rfl⟩
    rw [List.cons_append, List.append_assoc, List.singleton_append,
      readOnto_shift (.opening hopen), hread, readOnto_shift (.closing hclosing hinner)]

/-! ## What is read is derived -/

/-- `Opened stack ts`: the tokens `ts` have left these frames open. -/
inductive Opened : List Frame → List Token → Prop
  | nil : Opened [] []
  | paren {stack : List Frame} {ts : List Token} {tok : Token} :
      Opened stack ts → tok.kind = .leftParen → Opened (.paren :: stack) (ts ++ [tok])
  | unary {stack : List Frame} {ts : List Token} {op : Token} :
      Opened stack ts → op.kind = .bang ∨ op.kind = .minus →
      Opened (.unary op :: stack) (ts ++ [op])
  | binary {stack : List Frame} {ts ls : List Token} {l : Level} {left : Tree} {op : Token} :
      Opened stack ts → Fits l.rank stack → Derives (.level l) ls left → op.kind ∈ l.operators →
      Opened (.binary left op :: stack) (ts ++ (ls ++ [op]))

/-- Closing frames at a level around a phrase gives a phrase of that level, made of the tokens of
the phrase and of the frames that were closed; what stays open wants no more than the level. -/
theorem close_derives {stack : List Frame} {ts : List Token} (hopen : Opened stack ts)
    (l : Level) {p : Phrase} {vs : List Token} {v : Tree} (d : Derives p vs v)
    (hfits : Fits p.rank stack) (hrank : l.rank ≤ p.rank) :
    ∃ ts' vs', Opened (close l.rank stack v).1 ts' ∧ Fits l.rank (close l.rank stack v).1 ∧
      Derives (.level l) vs' (close l.rank stack v).2 ∧ ts' ++ vs' = ts ++ vs := by
  induction hopen generalizing p vs v with
  | nil => exact ⟨[], vs, .nil, trivial, d.loosen hrank, rfl⟩
  | paren hopen hkind =>
    exact ⟨_, vs, .paren hopen hkind, Nat.zero_le _, d.loosen hrank, rfl⟩
  | @unary stack ts op hopen hop ih =>
    have du : Derives .unary (op :: vs) (.unary op v) := .signed hop (d.loosen hfits)
    obtain ⟨ts', vs', ho, hf, dl, heq⟩ :=
      ih du (fits_unary stack) (Nat.le_trans l.rank_le (by decide))
    exact ⟨ts', vs', ho, hf, dl, by rw [heq]; simp⟩
  | @binary stack ts ls m left op hopen hm dl hop ih =>
    have hlevel := level?_eq_some_iff.mpr hop
    rcases Nat.lt_or_ge m.rank l.rank with hlt | hge
    · -- the operator binds more loosely than the level, so its frame stays open
      have hstay : close l.rank (.binary left op :: stack) v = (.binary left op :: stack, v) := by
        refine close_of_fits ?_ v
        exact Nat.le_trans (Nat.le_of_eq (wants_binary hop)) hlt
      rw [hstay]
      refine ⟨_, vs, .binary hopen hm dl hop, ?_, d.loosen hrank, rfl⟩
      exact Nat.le_trans (Nat.le_of_eq (wants_binary hop)) hlt
    · have hgo : close l.rank (.binary left op :: stack) v
          = close l.rank stack (.binary left op v) := by
        have hle : l.rank ≤ op.kind.level?.getD 0 := by rw [hlevel]; exact hge
        simp only [close, hle, if_true]
      have hoperand : m.operand.rank ≤ p.rank := by
        rw [rank_operand]
        exact Nat.le_trans (Nat.le_of_eq (wants_binary hop).symm) hfits
      obtain ⟨ts', vs', ho, hf, dl', heq⟩ := ih (dl.chain hop (d.loosen hoperand)) hm hge
      rw [hgo]
      exact ⟨ts', vs', ho, hf, dl', by rw [heq]; simp⟩

/-- `Before stack value? ts`: reading has come here by the tokens `ts`. A value is never more than
a primary phrase; what it becomes a part of is decided by the token behind it. -/
inductive Before : List Frame → Option Tree → List Token → Prop
  | wanting {stack : List Frame} {ts : List Token} : Opened stack ts → Before stack none ts
  | having {stack : List Frame} {ts vs : List Token} {v : Tree} :
      Opened stack ts → Derives .primary vs v → Before stack (some v) (ts ++ vs)

theorem derives_of_operand? {tok : Token} {v : Value} (h : tok.operand? = some v) :
    Derives .primary [tok] (.literal v) := by
  unfold Token.operand? at h
  split at h
  next hk => cases h; exact .falseWord hk
  next hk => cases h; exact .trueWord hk
  next hk => cases h; exact .nilWord hk
  next hk => cases h; exact .number hk
  next hk => cases h; exact .string hk
  next => cases h

/-- The frames and the value close to an expression around everything that was read. -/
theorem Opened.close_primary {stack : List Frame} {ts vs : List Token} {v : Tree}
    (hopen : Opened stack ts) (d : Derives .primary vs v) (l : Level) :
    ∃ ts' vs', Opened (close l.rank stack v).1 ts' ∧ Fits l.rank (close l.rank stack v).1 ∧
      Derives (.level l) vs' (close l.rank stack v).2 ∧ ts' ++ vs' = ts ++ vs :=
  close_derives hopen l d ((fits_unary stack).mono (by decide))
    (Nat.le_trans l.rank_le (by decide))

/-- A frame that stays open at the loosest level is a parenthesis. -/
theorem Opened.paren_of_fits {frame : Frame} {stack : List Frame} {ts : List Token}
    (hopen : Opened (frame :: stack) ts) (hfits : Fits 0 (frame :: stack)) :
    ∃ before tok, ts = before ++ [tok] ∧ tok.kind = .leftParen ∧ Opened stack before := by
  cases hopen with
  | paren hopen hk => exact ⟨_, _, rfl, hk, hopen⟩
  | unary => exact absurd hfits (Nat.not_succ_le_zero 3)
  | binary _ _ _ hop => exact absurd hfits (Nat.not_succ_le_zero _)

/-- Taking a token keeps the account of what was read. -/
theorem Before.shift {token : Token} {stack stack' : List Frame} {value? value?' : Option Tree}
    {ts : List Token} (hbefore : Before stack value? ts)
    (hshift : Shift token stack value? stack' value?') :
    Before stack' value?' (ts ++ [token]) := by
  cases hshift with
  | sign hu =>
    obtain ⟨hopen⟩ := hbefore
    refine .wanting (.unary hopen ?_)
    cases hk : token.kind <;> simp [hk, TokenKind.isUnary] at hu ⊢
  | opening hp =>
    obtain ⟨hopen⟩ := hbefore
    exact .wanting (.paren hopen hp)
  | operand hv =>
    obtain ⟨hopen⟩ := hbefore
    exact .having hopen (derives_of_operand? hv)
  | operator hl hc =>
    obtain _ | ⟨hopen, d⟩ := hbefore
    obtain ⟨l, rfl, hop⟩ := exists_level hl
    obtain ⟨ts', vs', ho, hf, dl, heq⟩ := hopen.close_primary d l
    rw [hc] at ho hf dl
    rw [← heq, List.append_assoc]
    exact .wanting (.binary ho hf dl hop)
  | closing hp hc =>
    obtain _ | ⟨hopen, d⟩ := hbefore
    obtain ⟨ts', vs', ho, hf, dl, heq⟩ := hopen.close_primary d .equality
    rw [show Level.equality.rank = 0 from rfl, hc] at ho hf dl
    obtain ⟨before, tok, rfl, hk, ho⟩ := ho.paren_of_fits hf
    have hgroup := Before.having ho (.group hk dl hp)
    rw [← heq]
    simpa using hgroup

/-- The value that is answered is an expression made of all that was read. -/
theorem Before.close {stack : List Frame} {value t : Tree} {ts : List Token}
    (hbefore : Before stack (some value) ts) (hclose : Tree.close 0 stack value = ([], t)) :
    Derives .expression ts t := by
  obtain _ | ⟨hopen, d⟩ := hbefore
  obtain ⟨ts', vs', ho, _, dl, heq⟩ := hopen.close_primary d .equality
  rw [show Level.equality.rank = 0 from rfl, hclose] at ho dl
  cases ho
  rw [← heq]
  exact dl

/-- Does no binary operator follow? -/
def Stops (rest : List Token) : Prop := ∀ tok ∈ rest.head?, tok.kind.level? = none

/-- What is read is an expression, made of the tokens before and those used up, and it is as long
as can be: no operator follows. -/
theorem readOnto_sound {endLine : Int} {tokens rest before : List Token} {stack : List Frame}
    {value? : Option Tree} {t : Tree} (hbefore : Before stack value? before)
    (hread : readOnto endLine stack value? tokens = (.ok t, rest)) :
    ∃ used, tokens = used ++ rest ∧ Derives .expression (before ++ used) t ∧ Stops rest := by
  induction tokens generalizing stack value? before with
  | nil =>
    cases value? with
    | none => simp [readOnto] at hread
    | some value =>
      rcases hc : Tree.close 0 stack value with ⟨_ | ⟨frame, outer⟩, u⟩
      · simp only [readOnto, hc, Prod.mk.injEq, Except.ok.injEq] at hread
        obtain ⟨rfl, rfl⟩ := hread
        refine ⟨[], rfl, ?_, by simp [Stops]⟩
        rw [List.append_nil]
        exact hbefore.close hc
      · simp [readOnto, hc] at hread
  | cons token more ih =>
    rcases shift_or_halt token stack value? with ⟨stack', value?', hs⟩ | ⟨answer, hh⟩
    · rw [readOnto_shift hs] at hread
      obtain ⟨used, rfl, d, hstops⟩ := ih (hbefore.shift hs) hread
      refine ⟨token :: used, rfl, ?_, hstops⟩
      rw [List.append_assoc, List.singleton_append] at d
      exact d
    · rw [readOnto_halt hh] at hread
      obtain ⟨rfl, rfl⟩ := Prod.mk.inj hread
      cases hh with
      | done hl hc =>
        refine ⟨[], rfl, ?_, by simpa [Stops] using hl⟩
        rw [List.append_nil]
        exact hbefore.close hc

/-- Reading succeeds exactly on an expression that no binary operator follows. -/
theorem read_eq_ok_iff {endLine : Int} {tokens rest : List Token} {t : Tree} :
    read endLine tokens = (.ok t, rest) ↔
      ∃ used, tokens = used ++ rest ∧ Derives .expression used t ∧ Stops rest := by
  constructor
  · intro hread
    exact readOnto_sound (.wanting .nil) hread
  · rintro ⟨used, rfl, d, hstops⟩
    obtain ⟨frames, value, hread, hclose⟩ := readOnto_of_derives d endLine [] rest trivial
    have hdone : Tree.close 0 frames value = ([], t) := hclose 0 (Nat.zero_le _)
    rw [read, hread]
    cases rest with
    | nil => simp [readOnto, hdone]
    | cons tok more => exact readOnto_halt (.done (hstops tok rfl) hdone) endLine more

/-! ## Single expressions -/

theorem stops_of_kind {tok : Token} {rest : List Token}
    (h : tok.kind = .semicolon ∨ tok.kind = .eof) : Stops (tok :: rest) := by
  rcases h with h | h <;> simp [Stops, h, TokenKind.level?]

/-- What is left behind an expression at the front of a token list that ends with its only end
mark: the rest of the list and the mark. -/
theorem append_end_eq {ts used rest : List Token} {mark : Token} {t : Tree}
    (hmark : mark.kind = .eof) (d : Derives .expression used t)
    (heq : ts ++ [mark] = used ++ rest) : ∃ more, ts = used ++ more ∧ rest = more ++ [mark] := by
  rcases List.eq_nil_or_concat rest with rfl | ⟨more, last, rfl⟩
  · have hmem : mark ∈ used := by
      rw [List.append_nil] at heq
      simp [← heq]
    exact absurd hmark (d.kind_ne mark hmem).1
  · rw [List.concat_eq_append, ← List.append_assoc] at heq
    obtain ⟨rfl, hlast⟩ := List.append_inj' heq rfl
    exact ⟨more, rfl, by rw [List.concat_eq_append, hlast]⟩

theorem atEnd_append_end {ts : List Token} {mark : Token} (hts : ∀ tok ∈ ts, tok.kind ≠ .eof)
    (hmark : mark.kind = .eof) : atEnd (ts ++ [mark]) = true ↔ ts = [] := by
  cases ts with
  | nil => simp [atEnd, Token.isEnd, hmark]
  | cons tok ts => simpa [atEnd, Token.isEnd] using hts tok (by simp)

theorem stops_of_atEnd {rest : List Token} (h : atEnd rest = true) : Stops rest := by
  cases rest with
  | nil => simp [Stops]
  | cons tok rest => exact stops_of_kind (.inr (by simpa [atEnd, Token.isEnd] using h))

/-- A single expression is read exactly when an expression stands in front, behind it a semicolon
or not, and then the end. -/
theorem single_eq_ok_iff {r : Reading} {t : Tree} :
    r.single.1 = .ok t ↔
      ∃ used rest, r.rest = used ++ rest ∧ Derives .expression used t ∧
        (atEnd rest = true ∨
          ∃ semicolon more, semicolon.kind = .semicolon ∧ rest = semicolon :: more ∧
            atEnd more = true) := by
  constructor
  · intro hsingle
    rcases hread : read r.endLine r.rest with ⟨_ | u, rest⟩
    · simp [Reading.single, hread] at hsingle
    · obtain ⟨used, heq, d, _⟩ := read_eq_ok_iff.mp hread
      rcases rest with _ | ⟨tok, more⟩
      · have hu : u = t := by simpa [Reading.single, hread, atEnd] using hsingle
        exact ⟨used, [], heq, hu ▸ d, .inl rfl⟩
      · refine ⟨used, tok :: more, heq, ?_⟩
        by_cases hs : tok.kind = .semicolon
        · cases hend : atEnd more with
          | false => simp [Reading.single, hread, hs, hend] at hsingle
          | true =>
            have hu : u = t := by simpa [Reading.single, hread, hs, hend] using hsingle
            exact ⟨hu ▸ d, .inr ⟨tok, more, hs, rfl, hend⟩⟩
        · cases hend : atEnd (tok :: more) with
          | false => simp [Reading.single, hread, hs, hend] at hsingle
          | true =>
            have hu : u = t := by simpa [Reading.single, hread, hs, hend] using hsingle
            exact ⟨hu ▸ d, .inl rfl⟩
  · rintro ⟨used, rest, heq, d, hend | ⟨semicolon, more, hs, rfl, hend⟩⟩
    · have hread : read r.endLine r.rest = (.ok t, rest) :=
        read_eq_ok_iff.mpr ⟨used, heq, d, stops_of_atEnd hend⟩
      have hkeep : ∀ tok more, rest = tok :: more → tok.kind ≠ .semicolon := by
        rintro tok more rfl
        simp only [atEnd, Token.isEnd, decide_eq_true_eq] at hend
        simp [hend]
      rcases rest with _ | ⟨tok, more⟩
      · simp [Reading.single, hread, atEnd]
      · simp [Reading.single, hread, hkeep tok more rfl, hend]
    · have hread : read r.endLine r.rest = (.ok t, semicolon :: more) :=
        read_eq_ok_iff.mpr ⟨used, heq, d, stops_of_kind (.inl hs)⟩
      simp [Reading.single, hread, hs, hend]

/-- In front of an only end mark, what is read as a single expression is a sentence. -/
theorem parseSingle_eq_ok_iff {ts : List Token} {mark : Token} {t : Tree}
    (hts : ∀ tok ∈ ts, tok.kind ≠ .eof) (hmark : mark.kind = .eof) :
    parseSingle (ts ++ [mark]) = .ok t ↔ Sentence ts t := by
  rw [parseSingle, single_eq_ok_iff]
  constructor
  · rintro ⟨used, rest, heq, d, hrest⟩
    obtain ⟨more, rfl, rfl⟩ := append_end_eq hmark d heq
    have hmore : ∀ tok ∈ more, tok.kind ≠ .eof := fun tok hm => hts tok (by simp [hm])
    rcases hrest with hend | ⟨semicolon, rest, hs, hsplit, hend⟩
    · rw [(atEnd_append_end hmore hmark).mp hend, List.append_nil]
      exact .bare d
    · rcases more with _ | ⟨tok, more⟩
      · -- the semicolon would be the mark itself
        cases hsplit
        exact absurd (hs.symm.trans hmark) (by decide)
      · obtain ⟨rfl, rfl⟩ := List.cons.inj hsplit
        have hnil := (atEnd_append_end (fun x hm => hmore x (by simp [hm])) hmark).mp hend
        rw [hnil]
        exact .ended d hs
  · rintro (d | ⟨d, hs⟩)
    · exact ⟨_, [mark], rfl, d, .inl ((atEnd_append_end (by simp) hmark).mpr rfl)⟩
    · refine ⟨_, [_, mark], by simp [Reading.start], d, .inr ⟨_, [mark], hs, rfl, ?_⟩⟩
      exact (atEnd_append_end (by simp) hmark).mpr rfl

/-- **Reading a single expression is exact.** In front of an only end mark the tree of a sentence is
read, and only that; no token list has two trees; and where there is no sentence, an error and no
tree is the answer. -/
theorem parseSingle_exact (ts : List Token) (mark : Token) (hts : ∀ tok ∈ ts, tok.kind ≠ .eof)
    (hmark : mark.kind = .eof) :
    (∀ t, parseSingle (ts ++ [mark]) = .ok t ↔ Sentence ts t) ∧
    (∀ t u, Sentence ts t → Sentence ts u → t = u) ∧
    ((¬ ∃ t, Sentence ts t) → ∃ d, parseSingle (ts ++ [mark]) = .error d) := by
  refine ⟨fun t => parseSingle_eq_ok_iff hts hmark, ?_, ?_⟩
  · intro t u ht hu
    have heq := ((parseSingle_eq_ok_iff hts hmark).mpr ht).symm.trans
      ((parseSingle_eq_ok_iff hts hmark).mpr hu)
    exact Except.ok.inj heq
  · intro hnone
    cases hparse : parseSingle (ts ++ [mark]) with
    | error d => exact ⟨d, rfl⟩
    | ok t => exact absurd ⟨t, (parseSingle_eq_ok_iff hts hmark).mp hparse⟩ hnone

/-- `nil - !true - (false);` leans to the left. -/
theorem parseSingle_exact_chain :
    let tok (k : TokenKind) : Token := ⟨k, [], .nil, 1⟩
    let ts := [tok .nilWord, tok .minus, tok .bang, tok .trueWord, tok .minus, tok .leftParen,
      tok .falseWord, tok .rightParen, tok .semicolon]
    (∀ t ∈ ts, t.kind ≠ .eof) ∧ (tok .eof).kind = .eof ∧
      Sentence ts (.binary
        (.binary (.literal .nil) (tok .minus) (.unary (tok .bang) (.literal (.bool true))))
        (tok .minus) (.group (.literal (.bool false)))) := by
  intro tok ts
  have hts : ∀ t ∈ ts, t.kind ≠ .eof := by decide
  exact ⟨hts, rfl, ((parseSingle_exact ts (tok .eof) hts rfl).1 _).mp rfl⟩

end Reckoner.Tree
