import Reckoner.Proofs.Cursor
import Reckoner.Proofs.Origin

/-!
# Reckoner.Proofs.Descent — procedures and frames read the same

The procedures of `Reckoner.Proofs.Cursor` come to an end and do what reading by frames does. A
procedure that starts in front of some tokens goes through them as reading by frames does with its
frames open: both fail at the same token, or the procedure finds the tree that the frames close to
(`Reads`). This holds of a phrase if it holds of the phrases inside, and so of all phrases, from the
inside out and by the number of tokens (`follows`). The depth that suffices grows with that number.

Main statements: `phrase_eq` for expressions, `single_eq` and `program_eq` for whole token lists.
-/

namespace Reckoner

/-! ## A single expression and what follows it -/

/-- The tokens from behind a semicolon on, where one is in front. -/
def Tree.behindSemicolon : List Token → List Token
  | token :: more => if token.kind = .semicolon then more else token :: more
  | [] => []

theorem Tree.behindSemicolon_suffix (rest : List Token) : behindSemicolon rest <:+ rest := by
  unfold behindSemicolon
  split
  · split
    · exact List.suffix_cons _ _
    · exact List.suffix_refl _
  · exact List.suffix_refl _

namespace Reading

variable {r : Reading} {rest : List Token} {t : Tree}

theorem single_of_error {d : Diagnostic} (h : Tree.read r.endLine r.rest = (.error d, rest)) :
    r.single = (.error d, { r with rest := Tree.recover rest }) := by
  simp [single, h]

theorem single_of_end (h : Tree.read r.endLine r.rest = (.ok t, rest))
    (hend : Tree.atEnd (Tree.behindSemicolon rest) = true) :
    r.single = (.ok t, { r with rest := Tree.behindSemicolon rest }) := by
  unfold Tree.behindSemicolon at hend ⊢
  simp only [single, h]
  exact if_pos hend

theorem single_of_more (h : Tree.read r.endLine r.rest = (.ok t, rest))
    (hmore : Tree.atEnd (Tree.behindSemicolon rest) = false) :
    r.single = (.error ((Tree.current r.endLine (Tree.behindSemicolon rest)).misplaced .endOfInput),
      { r with rest := Tree.recover (Tree.behindSemicolon rest) }) := by
  unfold Tree.behindSemicolon at hmore ⊢
  simp only [single, h]
  exact if_neg (ne_true_of_eq_false hmore)

end Reading

namespace Descent

open Grammar (Level Phrase)
open Reckoner.Tree (Frame Fits readOnto readOnto_shift readOnto_halt close endLineOf)

/-! ## Procedures and frames -/

/-- Does an operator that follows bind more loosely than this rank? -/
def Looser (rank : Nat) (rest : List Token) : Prop :=
  ∀ tok ∈ rest.head?, ∀ level, tok.kind.level? = some level → level < rank

theorem isEnd_of_operand? {tok : Token} {v : Value} (h : tok.operand? = some v) :
    tok.isEnd = false := by
  cases hend : tok.isEnd with
  | false => rfl
  | true =>
    have hkind : tok.kind = .eof := by simpa [Token.isEnd] using hend
    simp [Token.operand?, hkind] at h

/-- Every operator binds more loosely than a sign in front of an operand. -/
theorem looser_of_unary {rank : Nat} (h : Phrase.unary.rank ≤ rank) (rest : List Token) :
    Looser rank rest := by
  intro tok _ level hlevel
  obtain ⟨l, rfl, _⟩ := Grammar.exists_level hlevel
  exact Nat.lt_of_lt_of_le (Nat.lt_succ_of_le l.rank_le) h

/-- Nothing binds more loosely than the loosest level. -/
theorem Looser.stops {rest : List Token} (h : Looser 0 rest) : Tree.Stops rest := by
  intro tok htok
  cases hlevel : tok.kind.level? with
  | none => rfl
  | some level => exact absurd (h tok htok level hlevel) (Nat.not_lt_zero level)

/-- Where no operator of a level follows, nor any that binds more tightly, a looser one may. -/
theorem Looser.of_notMem {l : Level} {rest : List Token} (h : Looser (l.rank + 1) rest)
    (hkind : ∀ tok ∈ rest.head?, tok.kind ∉ l.operators) : Looser l.rank rest := by
  intro tok htok level hlevel
  have hle : level ≤ l.rank := Nat.le_of_lt_succ (h tok htok level hlevel)
  refine Nat.lt_of_le_of_ne hle ?_
  rintro rfl
  exact hkind tok htok (Grammar.level?_eq_some_iff.1 hlevel)

/-- `Reads tokens rank stack n reading run`: the `run` of a procedure comes to an end, and does the
same as `reading` by frames, which is to fill the innermost frame of `stack` with a phrase of this
rank. Either both fail at the same token; or the procedure has found a tree, with fewer than `n`
tokens left, and the frames close as if that tree had been the value all along. -/
def Reads (tokens : List Token) (rank : Nat) (stack : List Frame) (n : Nat)
    (reading : Except Diagnostic Tree × List Token)
    (run : Option (Except Diagnostic Tree × Nat)) : Prop :=
  (∃ d pos rest, run = some (.error d, pos) ∧ Faces tokens pos rest ∧ reading = (.error d, rest)) ∨
  (∃ t pos rest frames value, run = some (.ok t, pos) ∧ Faces tokens pos rest ∧ rest.length < n ∧
    reading = readOnto (endLineOf tokens) frames (some value) rest ∧
    (∀ level ≤ rank, close level frames value = close level stack t) ∧ Looser rank rest)

theorem Reads.mono {tokens : List Token} {rank n m : Nat} {stack : List Frame}
    {reading : Except Diagnostic Tree × List Token} {run : Option (Except Diagnostic Tree × Nat)}
    (h : Reads tokens rank stack n reading run) (hle : n ≤ m) :
    Reads tokens rank stack m reading run := by
  rcases h with hfault | ⟨t, pos, rest, frames, value, hrun, hfaces, hlen, hfound⟩
  · exact .inl hfault
  · exact .inr ⟨t, pos, rest, frames, value, hrun, hfaces, Nat.lt_of_lt_of_le hlen hle, hfound⟩

/-- How deep the calls may go that read a phrase in front of `n` tokens: every token is worth one
descent through all phrases. -/
def enough (p : Phrase) (n : Nat) : Nat := 7 * n + (7 - p.rank)

theorem exists_of_enough {p : Phrase} {n depth : Nat} (h : enough p n ≤ depth) :
    ∃ k, depth = k + 1 ∧ 7 * n + (6 - p.rank) ≤ k := by
  have hrank := p.rank_le
  unfold enough at h
  exact ⟨depth - 1, by omega, by omega⟩

/-- The procedure of a phrase does what reading by frames does, in front of these tokens. -/
def Follows (tokens : List Token) (p : Phrase) (rest : List Token) : Prop :=
  ∀ depth pos stack, enough p rest.length ≤ depth → Faces tokens pos rest → Fits p.rank stack →
    Reads tokens p.rank stack rest.length (readOnto (endLineOf tokens) stack none rest)
      (phrase tokens depth p pos)

section
variable {tokens : List Token}

/-- Behind an operand of a level: the operators of the level, each with its operand, are read one
after the other. -/
theorem reads_chain {l : Level} {rest : List Token} {stack frames : List Frame} {left value : Tree}
    {depth pos : Nat} (hoperand : ∀ more, more.length < rest.length → Follows tokens l.operand more)
    (hdepth : 7 * rest.length + 7 ≤ depth) (hfaces : Faces tokens pos rest)
    (hfits : Fits l.rank stack)
    (hclose : ∀ level ≤ l.rank, close level frames value = close level stack left)
    (hlooser : Looser (l.rank + 1) rest) :
    Reads tokens l.rank stack (rest.length + 1)
      (readOnto (endLineOf tokens) frames (some value) rest) (chain tokens depth l left pos) := by
  -- by the number of tokens: behind an operator and its operand there are fewer
  induction hn : rest.length using Nat.strongRecOn
    generalizing rest frames left value depth pos with
  | ind n ih =>
    obtain ⟨depth, rfl⟩ : ∃ k, depth = k + 1 := ⟨depth - 1, by omega⟩
    have hkinds : TokenKind.eof ∉ l.operators := by cases l <;> decide
    rcases hfaces.sees_cases l.operators hkinds with
      ⟨hsees, op, more, rfl, hop, hadv, hmore, hprev⟩ | ⟨hsees, hkind⟩
    · have hlevel := Grammar.level?_eq_some_iff.2 hop
      have hopen : close l.rank frames value = (stack, left) :=
        (hclose l.rank (Nat.le_refl _)).trans (Tree.close_of_fits hfits left)
      have hwants : Fits l.operand.rank (.binary left op :: stack) := by
        rw [Grammar.rank_operand]
        exact Nat.le_of_eq (Tree.wants_binary hop)
      rw [List.length_cons] at hn hdepth
      have hshort : more.length < (op :: more).length := Nat.lt_succ_self _
      have hdeep : enough l.operand more.length ≤ depth := by
        unfold enough
        omega
      rw [readOnto_shift (.operator hlevel hopen)]
      rcases hoperand more hshort depth (pos + 1) _ hdeep hmore hwants with
        ⟨d, pos', rest', hrun, hfaces', hread⟩ |
        ⟨right, pos', rest', frames', value', hrun, hfaces', hlen, hread, hclose', hlooser'⟩
      · refine .inl ⟨d, pos', rest', ?_, hfaces', hread⟩
        simp [chain, hsees, hadv, hrun]
      · have hchain : chain tokens (depth + 1) l left pos
            = chain tokens depth l (.binary left op right) pos' := by
          simp [chain, hsees, hadv, hprev, hrun]
        have hnext : ∀ level ≤ l.rank,
            close level frames' value' = close level stack (.binary left op right) := by
          intro level hle
          rw [hclose' level (by rw [Grammar.rank_operand]; omega)]
          have hle' : level ≤ op.kind.level?.getD 0 := by rw [hlevel]; exact hle
          simp only [close, hle', if_true]
        rw [Grammar.rank_operand] at hlooser'
        rw [hchain, hread]
        have hdeep' : 7 * rest'.length + 7 ≤ depth := by omega
        have hshorter : ∀ more', more'.length < rest'.length → Follows tokens l.operand more' :=
          fun more' hm => hoperand more' (Nat.lt_trans hm (Nat.lt_trans hlen hshort))
        have hbehind := ih rest'.length (by omega) hshorter hdeep' hfaces' hnext hlooser' rfl
        exact hbehind.mono (by omega)
    · refine .inr ⟨left, pos, rest, frames, value, ?_, hfaces, by omega, rfl, hclose, ?_⟩
      · simp [chain, hsees]
      · exact hlooser.of_notMem hkind

/-- A level is read if its operands are. -/
theorem follows_level {l : Level} {rest : List Token} (hoperand : Follows tokens l.operand rest)
    (hshort : ∀ more, more.length < rest.length → Follows tokens l.operand more) :
    Follows tokens (.level l) rest := by
  intro depth pos stack hdepth hfaces hfits
  obtain ⟨depth, rfl, hdepth⟩ := exists_of_enough hdepth
  have hrank : l.operand.rank = l.rank + 1 := Grammar.rank_operand l
  have hsame : (Phrase.level l).rank = l.rank := rfl
  have hle := l.rank_le
  have hdeep : enough l.operand rest.length ≤ depth := by unfold enough at *; omega
  have hwants : Fits l.operand.rank stack := hfits.mono (by omega)
  rcases hoperand depth pos stack hdeep hfaces hwants with
    ⟨d, pos', rest', hrun, hfaces', hread⟩ |
    ⟨t, pos', rest', frames, value, hrun, hfaces', hlen, hread, hclose, hlooser⟩
  · refine .inl ⟨d, pos', rest', ?_, hfaces', hread⟩
    simp [phrase, hrun]
  · have hphrase : phrase tokens (depth + 1) (.level l) pos = chain tokens depth l t pos' := by
      simp [phrase, hrun]
    rw [hphrase, hread]
    rw [hrank] at hlooser hclose
    have hshorter : ∀ more, more.length < rest'.length → Follows tokens l.operand more :=
      fun more hm => hshort more (Nat.lt_trans hm hlen)
    have hchain : 7 * rest'.length + 7 ≤ depth := by omega
    exact (reads_chain hshorter hchain hfaces' hfits
      (fun level hlevel => hclose level (Nat.le_succ_of_le hlevel)) hlooser).mono hlen

/-- A sign and the operand behind it. -/
theorem follows_unary {rest : List Token}
    (hshort : ∀ more, more.length < rest.length → Follows tokens .unary more)
    (hprimary : (∀ tok ∈ rest.head?, tok.kind.isUnary = false) → Follows tokens .primary rest) :
    Follows tokens .unary rest := by
  intro depth pos stack hdepth hfaces hfits
  obtain ⟨depth, rfl, hdepth⟩ := exists_of_enough hdepth
  have hu : Phrase.unary.rank = 4 := rfl
  have hp : Phrase.primary.rank = 5 := rfl
  rcases hfaces.sees_cases [.bang, .minus] (by decide) with
    ⟨hsees, op, more, rfl, hop, hadv, hmore, hprev⟩ | ⟨hsees, hkind⟩
  · have hsign : op.kind.isUnary = true := by
      simp only [List.mem_cons, List.not_mem_nil, or_false] at hop
      rcases hop with hop | hop <;> rw [hop] <;> rfl
    have hdeep : enough .unary more.length ≤ depth := by
      unfold enough at *
      rw [List.length_cons] at hdepth
      omega
    rw [readOnto_shift (.sign hsign)]
    rcases hshort more (Nat.lt_succ_self _) depth (pos + 1) (.unary op :: stack) hdeep hmore
      (Nat.le_refl 4) with
      ⟨d, pos', rest', hrun, hfaces', hread⟩ |
      ⟨t, pos', rest', frames, value, hrun, hfaces', hlen, hread, hclose, hlooser⟩
    · refine .inl ⟨d, pos', rest', ?_, hfaces', hread⟩
      simp [phrase, hsees, hadv, hrun]
    · refine .inr ⟨.unary op t, pos', rest', frames, value, ?_, hfaces', Nat.lt_succ_of_lt hlen,
        hread, hclose, hlooser⟩
      simp [phrase, hsees, hadv, hprev, hrun]
  · have hplain : ∀ tok ∈ rest.head?, tok.kind.isUnary = false := by
      intro tok htok
      have hne := hkind tok htok
      cases hk : tok.kind <;> simp_all [TokenKind.isUnary]
    have hdeep : enough .primary rest.length ≤ depth := by unfold enough at *; omega
    have hphrase : phrase tokens (depth + 1) .unary pos = phrase tokens depth .primary pos := by
      simp [phrase, hsees]
    rw [hphrase]
    rcases hprimary hplain depth pos stack hdeep hfaces (hfits.mono (by decide)) with
      hfault | ⟨t, pos', rest', frames, value, hrun, hfaces', hlen, hread, hclose, -⟩
    · exact .inl hfault
    · exact .inr ⟨t, pos', rest', frames, value, hrun, hfaces', hlen, hread,
        fun level hle => hclose level (by omega), looser_of_unary (Nat.le_refl _) rest'⟩

/-- Behind an expression in parentheses: without the closing one, reading fails there. -/
theorem readOnto_unclosed {endLine : Int} {stack frames : List Frame} {value t : Tree}
    {rest : List Token} (hclose : close 0 frames value = (.paren :: stack, t))
    (hlooser : Looser 0 rest) (hkind : ∀ tok ∈ rest.head?, tok.kind ∉ [TokenKind.rightParen]) :
    readOnto endLine frames (some value) rest
      = (.error ((Tree.current endLine rest).misplaced .closingParen), rest) := by
  cases rest with
  | nil => simp [readOnto, hclose, Tree.current]
  | cons tok more =>
    have hlevel := hlooser.stops tok rfl
    have hparen : tok.kind ≠ .rightParen := by simpa using hkind tok rfl
    exact readOnto_halt (.unclosed hlevel hparen hclose) endLine more

/-- What needs no sign: a token with a value, or an expression in parentheses. -/
theorem follows_primary {rest : List Token}
    (hshort : ∀ more, more.length < rest.length → Follows tokens .expression more)
    (hplain : ∀ tok ∈ rest.head?, tok.kind.isUnary = false) : Follows tokens .primary rest := by
  intro depth pos stack hdepth hfaces hfits
  obtain ⟨depth, rfl, hdepth⟩ := exists_of_enough hdepth
  have hcurrent := hfaces.current
  cases hoperand : (current tokens pos).operand? with
  | some v =>
    rcases rest with _ | ⟨tok, more⟩
    · rw [hcurrent] at hoperand
      cases hoperand
    obtain rfl : current tokens pos = tok := hcurrent
    have hadv := hfaces.advance (isEnd_of_operand? hoperand)
    rw [readOnto_shift (.operand hoperand)]
    refine .inr ⟨.literal v, pos + 1, more, stack, .literal v, ?_, hfaces.next, Nat.lt_succ_self _,
      rfl, fun _ _ => rfl, looser_of_unary (by decide) more⟩
    simp [phrase, hoperand, hadv]
  | none =>
    rcases hfaces.sees_cases [.leftParen] (by decide) with
      ⟨hopen, tok, more, rfl, hkind, hadv, hmore, -⟩ | ⟨hopen, hno⟩
    · have hparen : tok.kind = .leftParen := by simpa using hkind
      have hdeep : enough .expression more.length ≤ depth := by
        simp only [enough, Phrase.rank, Level.rank, List.length_cons] at hdepth ⊢
        omega
      rw [readOnto_shift (.opening hparen)]
      rcases hshort more (Nat.lt_succ_self _) depth (pos + 1) (.paren :: stack) hdeep hmore
        (Nat.zero_le _) with
        ⟨d, pos', rest', hrun, hfaces', hread⟩ |
        ⟨t, pos', rest', frames, value, hrun, hfaces', hlen, hread, hclose, hlooser⟩
      · refine .inl ⟨d, pos', rest', ?_, hfaces', hread⟩
        simp [phrase, hoperand, hopen, hadv, hrun]
      · have hinner : close 0 frames value = (.paren :: stack, t) := hclose 0 (Nat.zero_le _)
        rw [hread]
        rcases hfaces'.sees_cases [.rightParen] (by decide) with
          ⟨hsees, closing, behind, rfl, hclosing, hadv', hbehind, -⟩ | ⟨hsees, hno⟩
        · have hclosing : closing.kind = .rightParen := by simpa using hclosing
          rw [readOnto_shift (.closing hclosing hinner)]
          refine .inr ⟨.group t, pos' + 1, behind, stack, .group t, ?_, hbehind, ?_, rfl,
            fun _ _ => rfl, looser_of_unary (by decide) behind⟩
          · simp [phrase, hoperand, hopen, hadv, hrun, hsees, hadv']
          · simp only [List.length_cons] at hlen ⊢
            omega
        · refine .inl ⟨_, pos', rest', ?_, hfaces', readOnto_unclosed hinner hlooser hno⟩
          simp [phrase, hoperand, hopen, hadv, hrun, hsees, hfaces'.current]
    · refine .inl ⟨(Tree.current (endLineOf tokens) rest).misplaced .expression, pos, rest, ?_,
        hfaces, ?_⟩
      · rw [← hcurrent]
        simp [phrase, hoperand, hopen]
      · cases rest with
        | nil => rfl
        | cons tok more =>
          obtain rfl : current tokens pos = tok := hcurrent
          have hparen : (current tokens pos).kind ≠ .leftParen := by simpa using hno _ rfl
          exact readOnto_halt (.noOperand (hplain _ rfl) hparen hoperand) _ more

/-- **The procedures follow the frames**, phrase by phrase from the inside out. -/
theorem follows (p : Phrase) (rest : List Token)
    (hplain : p = .primary → ∀ tok ∈ rest.head?, tok.kind.isUnary = false) :
    Follows tokens p rest := by
  induction hn : rest.length using Nat.strongRecOn generalizing p rest with
  | ind n ih =>
    have hshort : ∀ q, q ≠ .primary → ∀ more, more.length < rest.length → Follows tokens q more :=
      fun q hq more hm => ih more.length (hn ▸ hm) q more (fun h => absurd h hq) rfl
    -- what stands in parentheses, behind a sign or behind an operator is shorter; the phrases that
    -- start at the same token are taken from the inside out
    have hprimary := follows_primary (hshort .expression (by decide))
    have hunary : Follows tokens .unary rest := follows_unary (hshort .unary (by decide)) hprimary
    have hfactor : Follows tokens (.level .factor) rest :=
      follows_level hunary (hshort .unary (by decide))
    have hterm : Follows tokens (.level .term) rest :=
      follows_level hfactor (hshort (.level .factor) (by decide))
    have hcomparison : Follows tokens (.level .comparison) rest :=
      follows_level hterm (hshort (.level .term) (by decide))
    match p with
    | .level .equality => exact follows_level hcomparison (hshort (.level .comparison) (by decide))
    | .level .comparison => exact hcomparison
    | .level .term => exact hterm
    | .level .factor => exact hfactor
    | .unary => exact hunary
    | .primary => exact hprimary (hplain rfl)

/-! ## From the cursor to the tokens left

In each of these equations the procedure answers what reading by frames answers, and its cursor is
in front of the tokens that reading by frames leaves. -/

section
variable {rest : List Token} {depth pos : Nat}

/-- Reading by frames ends behind a tree that closes all frames and that no operator follows. -/
theorem readOnto_done {endLine : Int} {frames : List Frame} {value t : Tree} {rest : List Token}
    (hclose : close 0 frames value = ([], t)) (hlooser : Looser 0 rest) :
    readOnto endLine frames (some value) rest = (.ok t, rest) := by
  cases rest with
  | nil => simp [readOnto, hclose]
  | cons tok more => exact readOnto_halt (.done (hlooser.stops tok rfl) hclose) endLine more

/-- **An expression is read by procedures as it is read by frames.** -/
theorem phrase_eq (hdepth : enough .expression rest.length ≤ depth)
    (hfaces : Faces tokens pos rest) :
    ∃ pos', phrase tokens depth .expression pos
        = some ((Tree.read (endLineOf tokens) rest).1, pos') ∧
      Faces tokens pos' (Tree.read (endLineOf tokens) rest).2 := by
  have hfollows : Follows tokens .expression rest :=
    follows .expression rest (fun h => absurd h (by decide))
  unfold Tree.read
  rcases hfollows depth pos [] hdepth hfaces trivial with
    ⟨d, pos', rest', hrun, hfaces', hread⟩ |
    ⟨t, pos', rest', frames, value, hrun, hfaces', -, hread, hclose, hlooser⟩
  · rw [hread]
    exact ⟨pos', hrun, hfaces'⟩
  · have hdone : close 0 frames value = ([], t) := hclose 0 (Nat.zero_le _)
    rw [hread, readOnto_done hdone hlooser]
    exact ⟨pos', hrun, hfaces'⟩

theorem skip_eq (hdepth : rest.length < depth) (hfaces : Faces tokens pos rest) :
    ∃ pos', skip tokens depth pos = some pos' ∧
      Faces tokens pos' (Tree.skipFrom (previous tokens pos).kind rest) := by
  induction rest generalizing depth pos with
  | nil =>
    obtain ⟨depth, rfl⟩ := Nat.exists_eq_add_of_lt hdepth
    refine ⟨pos, ?_, hfaces⟩
    have hend : atEnd tokens pos = true := hfaces.atEnd
    rw [skip, if_pos hend]
  | cons tok more ih =>
    obtain ⟨depth, rfl⟩ : ∃ k, depth = k + 1 := ⟨depth - 1, by omega⟩
    have hcurrent : current tokens pos = tok := hfaces.current
    by_cases hstop : (tok.isEnd || (previous tokens pos).kind = .semicolon
        || tok.kind.startsStatement) = true
    · refine ⟨pos, ?_, ?_⟩
      · simp only [Bool.or_eq_true, decide_eq_true_eq] at hstop
        rcases hstop with (h | h) | h <;> simp [skip, atEnd, hcurrent, h]
      · simp only [Tree.skipFrom, if_pos hstop]
        exact hfaces
    · have hrun : skip tokens (depth + 1) pos = skip tokens depth (pos + 1) := by
        simp only [Bool.or_eq_true, decide_eq_true_eq, not_or, Bool.not_eq_true] at hstop
        obtain ⟨⟨hend, hprev⟩, hstart⟩ := hstop
        simp [skip, atEnd, hcurrent, hend, hprev, hstart, hfaces.advance hend]
      simp only [hrun, Tree.skipFrom, if_neg hstop]
      have hmore := ih (Nat.lt_of_succ_lt_succ hdepth) hfaces.next
      rwa [hfaces.previous] at hmore

/-- After a fault both go on at the same token. -/
theorem resume_eq (hdepth : rest.length < depth) (hfaces : Faces tokens pos rest) :
    ∃ pos', resume tokens depth pos = some pos' ∧ Faces tokens pos' (Tree.recover rest) := by
  cases hend : Tree.atEnd rest with
  | true =>
    have hskip : skip tokens depth pos = some pos := by
      obtain ⟨depth, rfl⟩ : ∃ k, depth = k + 1 := ⟨depth - 1, by omega⟩
      rw [skip, if_pos (hfaces.atEnd.trans hend)]
    refine ⟨pos, by rw [resume, hfaces.advance_end hend, hskip], ?_⟩
    cases rest with
    | nil => exact hfaces
    | cons tok more =>
      have hstay : Tree.recover (tok :: more) = tok :: more := if_pos hend
      rwa [hstay]
  | false =>
    rcases rest with _ | ⟨tok, more⟩
    · cases hend
    have hgo : Tree.recover (tok :: more) = Tree.skipFrom tok.kind more :=
      if_neg (by simpa [Tree.atEnd] using hend)
    have hskip := skip_eq (Nat.lt_of_succ_lt hdepth) hfaces.next
    rw [hfaces.previous] at hskip
    rw [resume, hfaces.advance hend, hgo]
    exact hskip

theorem item_eq (hdepth : enough .expression rest.length ≤ depth) (hfaces : Faces tokens pos rest) :
    ∃ pos', item tokens depth pos = some ((Tree.readItem (endLineOf tokens) rest).1, pos') ∧
      Faces tokens pos' (Tree.readItem (endLineOf tokens) rest).2 := by
  obtain ⟨pos', hrun, hfaces'⟩ := phrase_eq hdepth hfaces
  rcases hread : Tree.read (endLineOf tokens) rest with ⟨d | t, rest'⟩
  · rw [hread] at hrun hfaces'
    refine ⟨pos', ?_, ?_⟩
    · simp [item, hrun, Tree.readItem, hread]
    · simpa [Tree.readItem, hread] using hfaces'
  · rw [hread] at hrun hfaces'
    rcases hfaces'.sees_cases [.semicolon] (by decide) with
      ⟨hsees, semicolon, more, rfl, hkind, hadv, hmore, -⟩ | ⟨hsees, hno⟩
    · have hsemi : semicolon.kind = .semicolon := by simpa using hkind
      refine ⟨pos' + 1, ?_, ?_⟩
      · simp [item, hrun, hsees, hadv, Tree.readItem, hread, hsemi]
      · simpa [Tree.readItem, hread, hsemi] using hmore
    · have hend := hfaces'.atEnd
      have hcurrent := hfaces'.current
      refine ⟨pos', ?_, ?_⟩
      · rcases rest' with _ | ⟨tok, more⟩
        · simp [item, hrun, hsees, hend, Tree.atEnd, Tree.readItem, hread]
        · have hsemi : tok.kind ≠ .semicolon := by simpa using hno tok rfl
          cases hat : tok.isEnd <;>
            simp [item, hrun, hsees, hend, hat, hcurrent, Tree.atEnd, Tree.current, Tree.readItem,
              hread, hsemi]
      · rcases rest' with _ | ⟨tok, more⟩
        · simpa [Tree.readItem, hread] using hfaces'
        · have hsemi : tok.kind ≠ .semicolon := by simpa using hno tok rfl
          cases hat : tok.isEnd <;> simpa [Tree.readItem, hread, hsemi, hat] using hfaces'

/-- Going past a semicolon, where one is in front. -/
theorem Faces.behindSemicolon (h : Faces tokens pos rest) :
    Faces tokens (if sees tokens [.semicolon] pos then Descent.advance tokens pos else pos)
      (Tree.behindSemicolon rest) := by
  rcases h.sees_cases [.semicolon] (by decide) with
    ⟨hsees, semicolon, more, rfl, hkind, hadv, hmore, -⟩ | ⟨hsees, hno⟩
  · have hsemi : semicolon.kind = .semicolon := by simpa using hkind
    simpa [Tree.behindSemicolon, hsees, hadv, hsemi] using hmore
  · cases rest with
    | nil => simpa [Tree.behindSemicolon, hsees] using h
    | cons tok more =>
      have hsemi : tok.kind ≠ .semicolon := by simpa using hno tok rfl
      simpa [Tree.behindSemicolon, hsees, hsemi] using h

/-- **A single expression is read by procedures as it is read by frames.** -/
theorem single_eq (hdepth : enough .expression rest.length ≤ depth)
    (hfaces : Faces tokens pos rest) :
    let r : Reading := ⟨endLineOf tokens, rest⟩
    ∃ pos', single tokens depth pos = some (r.single.1, pos') ∧
      Faces tokens pos' r.single.2.rest := by
  intro r
  have hshort : ∀ {more}, more <:+ rest → more.length < depth := by
    intro more hmore
    have := hmore.length_le
    simp only [enough, Phrase.rank, Level.rank] at hdepth
    omega
  have hsuffix : (Tree.read r.endLine r.rest).2 <:+ rest := Tree.readOnto_suffix _ _ _ _
  obtain ⟨pos', hrun, hfaces'⟩ := phrase_eq hdepth hfaces
  rcases hread : Tree.read r.endLine r.rest with ⟨d | t, rest'⟩
  · rw [hread] at hrun hfaces' hsuffix
    obtain ⟨next, hresume, hnext⟩ := resume_eq (hshort hsuffix) hfaces'
    rw [Reading.single_of_error hread]
    refine ⟨next, ?_, hnext⟩
    simp [single, hrun, hresume]
  · rw [hread] at hrun hfaces' hsuffix
    have hstop := hfaces'.behindSemicolon
    cases hend : Tree.atEnd (Tree.behindSemicolon rest') with
    | true =>
      rw [Reading.single_of_end hread hend]
      refine ⟨_, ?_, hstop⟩
      simp [single, hrun, hstop.atEnd, hend]
    | false =>
      have hbehind := (Tree.behindSemicolon_suffix rest').trans hsuffix
      obtain ⟨next, hresume, hnext⟩ := resume_eq (hshort hbehind) hstop
      rw [Reading.single_of_more hread hend]
      refine ⟨next, ?_, hnext⟩
      simp [single, hrun, hstop.atEnd, hend, hstop.current, hresume, r]

end

/-- How deep the calls may go that read all items of these tokens. -/
def limit (tokens : List Token) : Nat := 7 * tokens.length + 8

theorem enough_le_limit {pos : Nat} {rest : List Token} (h : Faces tokens pos rest) :
    enough .expression rest.length ≤ limit tokens := by
  have hlen := h.length_le
  simp only [enough, limit, Phrase.rank, Level.rank]
  omega

/-- Reading a program: item after item, and behind a fault from where reading goes on. -/
theorem itemsOnto_eq (rest : List Token) : ∀ (found : Tree.Program) (depth pos : Nat),
    7 * rest.length + 8 ≤ depth → Faces tokens pos rest →
    ∃ pos', itemsOnto tokens depth found pos
        = some (found ++ (Tree.readProgram (endLineOf tokens) rest).1, pos') ∧
      Faces tokens pos' (Tree.readProgram (endLineOf tokens) rest).2 := by
  induction rest using Tree.program_induction (endLineOf tokens) with
  | nil =>
    intro found depth pos hdepth hfaces
    obtain ⟨depth, rfl⟩ : ∃ k, depth = k + 1 := ⟨depth - 1, by omega⟩
    refine ⟨pos, ?_, ?_⟩
    · simp [itemsOnto, hfaces.atEnd, Tree.atEnd]
    · simpa using hfaces
  | stop tok rest hend =>
    intro found depth pos hdepth hfaces
    obtain ⟨depth, rfl⟩ : ∃ k, depth = k + 1 := ⟨depth - 1, by omega⟩
    rw [Tree.readProgram_end hend]
    refine ⟨pos, ?_, hfaces⟩
    simp [itemsOnto, hfaces.atEnd, Tree.atEnd, hend]
  | step tok rest outcome more hend hmore hturn ih =>
    intro found depth pos hdepth hfaces
    obtain ⟨depth, rfl⟩ : ∃ k, depth = k + 1 := ⟨depth - 1, by omega⟩
    have hat : atEnd tokens pos = false := hfaces.atEnd.trans hend
    have hlen := hmore.length_le
    rw [List.length_cons] at hdepth
    have hdeep : enough .expression (tok :: rest).length ≤ depth := by
      simp only [enough, Phrase.rank, Level.rank, List.length_cons]
      omega
    obtain ⟨stop, hitem, hstop⟩ := item_eq hdeep hfaces
    rw [Tree.readProgram_turn hend hturn]
    rcases hread : Tree.readItem (endLineOf tokens) (tok :: rest) with ⟨d | t, left⟩
    · rw [hread] at hitem hstop
      obtain ⟨rfl, rfl⟩ : .error d = outcome ∧ Tree.recover left = more := by
        simpa [Tree.turn, hread] using hturn
      have hleft : left.length ≤ (tok :: rest).length := by
        have hsuffix := Tree.readItem_suffix (endLineOf tokens) (tok :: rest)
        rw [hread] at hsuffix
        exact hsuffix.length_le
      rw [List.length_cons] at hleft
      have hshort : left.length < depth := by omega
      obtain ⟨next, hresume, hnext⟩ := resume_eq hshort hstop
      obtain ⟨pos', hrun, hfaces'⟩ :=
        ih { found with diagnostics := found.diagnostics ++ [d] } depth next (by omega) hnext
      refine ⟨pos', ?_, hfaces'⟩
      simp [itemsOnto, hat, hitem, hresume, hrun, Tree.Program.append_def, Tree.Program.push]
    · rw [hread] at hitem hstop
      obtain ⟨rfl, rfl⟩ : .ok t = outcome ∧ left = more := by
        simpa [Tree.turn, hread] using hturn
      obtain ⟨pos', hrun, hfaces'⟩ :=
        ih { found with trees := found.trees ++ [t] } depth stop (by omega) hstop
      refine ⟨pos', ?_, hfaces'⟩
      simp [itemsOnto, hat, hitem, hrun, Tree.Program.append_def, Tree.Program.push]

/-- **A program is read by procedures as it is read by frames.** -/
theorem program_eq {rest : List Token} {depth pos : Nat} (hdepth : 7 * rest.length + 8 ≤ depth)
    (hfaces : Faces tokens pos rest) :
    let r : Reading := ⟨endLineOf tokens, rest⟩
    ∃ pos', program tokens depth pos = some (r.program.1, pos') ∧
      Faces tokens pos' r.program.2.rest := by
  obtain ⟨pos', hrun, hfaces'⟩ := itemsOnto_eq rest .empty depth pos hdepth hfaces
  exact ⟨pos', hrun, hfaces'⟩

end

end Descent

end Reckoner
