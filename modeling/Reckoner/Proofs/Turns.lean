import Mathlib.Order.Bounds.Defs
import Reckoner.Proofs.Descent

/-!
# Reckoner.Proofs.Turns — where faults are found and where reading goes on

The cursor that reads a program takes turns: each reads an item, and one that fails finds the place
where the next one starts (`Turns`). A turn uses up a token at least, even if the item at the cursor
fails at once, since recovery first goes past the token that it failed at. So the faults of a
program are at different tokens, in order, and there are no more turns than tokens.

Main statement: `exists_turns_exact`.
-/

namespace Reckoner.Descent

open Reckoner.Tree (endLineOf)

/-! ## Where reading goes on -/

/-- Can an item start here: at the end, behind a semicolon, or at a word that starts a statement? -/
def Boundary (tokens : List Token) (q : Nat) : Prop :=
  q = endOf tokens ∨ (current tokens (q - 1)).kind = .semicolon ∨
    (current tokens q).kind ∈ [.classWord, .funWord, .varWord, .forWord, .ifWord, .whileWord,
      .printWord, .returnWord]

section
variable {tokens : List Token} {depth pos pos' : Nat}

/-- Behind a token in front of the end, the places where skipping stops are the boundaries. -/
theorem stops_iff (h : pos < endOf tokens) :
    (atEnd tokens (pos + 1) = true ∨ (previous tokens (pos + 1)).kind = .semicolon ∨
      (current tokens (pos + 1)).kind.startsStatement = true) ↔ Boundary tokens (pos + 1) := by
  have hword : ∀ kind : TokenKind, kind.startsStatement = true ↔
      kind ∈ [.classWord, .funWord, .varWord, .forWord, .ifWord, .whileWord, .printWord,
        .returnWord] := by
    intro kind
    cases kind <;> decide
  rw [Boundary, atEnd_iff (Nat.succ_le_of_lt h), previous_succ h, hword, Nat.add_sub_cancel]

/-- Skipping from behind a token goes on to the nearest boundary. -/
theorem isLeast_skip (h : skip tokens depth (pos + 1) = some pos') (hpos : pos < endOf tokens) :
    IsLeast {q | pos < q ∧ Boundary tokens q} pos' := by
  induction depth generalizing pos with
  | zero => cases h
  | succ depth ih =>
    have hstops := stops_iff hpos
    by_cases hstop : Boundary tokens (pos + 1)
    · have hhere : skip tokens (depth + 1) (pos + 1) = some (pos + 1) := by
        rcases hstops.2 hstop with h | h | h <;> simp [skip, h]
      obtain rfl : pos + 1 = pos' := Option.some.inj (hhere.symm.trans h)
      exact ⟨⟨Nat.lt_succ_self pos, hstop⟩, fun q hq => hq.1⟩
    · -- no boundary, so not the end either: the least one from here on is the least one behind
      have hlt : pos + 1 < endOf tokens :=
        Nat.lt_of_le_of_ne hpos fun heq => hstop (.inl heq)
      have hgo : skip tokens (depth + 1) (pos + 1) = skip tokens depth (pos + 1 + 1) := by
        obtain ⟨hend, hprev, hstart⟩ := by simpa only [not_or] using mt hstops.1 hstop
        simp [skip, hend, hprev, hstart, advance_of_lt hlt]
      obtain ⟨⟨hmore, hboundary⟩, hleast⟩ := ih (hgo ▸ h) hlt
      refine ⟨⟨Nat.lt_of_succ_lt hmore, hboundary⟩, fun q hq => ?_⟩
      have hne : q ≠ pos + 1 := fun heq => hstop (heq ▸ hq.2)
      exact hleast ⟨Nat.lt_of_le_of_ne hq.1 (Ne.symm hne), hq.2⟩

/-- After a fault in front of the end reading goes on at the nearest boundary behind it. -/
theorem isLeast_resume (h : resume tokens depth pos = some pos') (hpos : pos < endOf tokens) :
    IsLeast {q | pos < q ∧ Boundary tokens q} pos' := by
  rw [resume, advance_of_lt hpos] at h
  exact isLeast_skip h hpos

theorem resume_end (h : resume tokens depth (endOf tokens) = some pos') : pos' = endOf tokens := by
  obtain ⟨hle, hend⟩ := moves_resume h
  exact Nat.le_antisymm (hend (Nat.le_refl _)) hle

/-! ## What an item does to the cursor -/

/-- An item is read from the cursor on as it is read by frames from the tokens left. -/
theorem readItem_of_item {answer : Except Diagnostic Tree} (hpos : pos ≤ tokens.length)
    (h : item tokens (limit tokens) pos = some (answer, pos')) :
    ∃ rest, Tree.readItem (endLineOf tokens) (tokens.drop pos) = (answer, rest) ∧
      Faces tokens pos' rest := by
  have hfaces := Faces.drop hpos
  obtain ⟨stop, hitem, hstop⟩ := item_eq (enough_le_limit hfaces) hfaces
  obtain ⟨hanswer, rfl⟩ := Prod.mk.inj (Option.some.inj (hitem.symm.trans h))
  exact ⟨_, Prod.ext hanswer rfl, hstop⟩

/-- An item that is read uses up a token. -/
theorem item_lt {t : Tree} (hpos : pos ≤ tokens.length)
    (h : item tokens (limit tokens) pos = some (.ok t, pos')) : pos < pos' := by
  obtain ⟨rest, hread, hfaces⟩ := readItem_of_item hpos h
  have hbefore := (Faces.drop hpos).add_length
  have hbehind := hfaces.add_length
  rcases hdrop : tokens.drop pos with _ | ⟨tok, more⟩
  · rw [hdrop] at hread
    cases hread
  · rw [hdrop] at hread hbefore
    have hlen := Tree.length_readItem_lt (t := t) (congrArg Prod.fst hread)
    rw [hread] at hlen
    rw [List.length_cons] at hbefore
    simp only at hlen
    omega

/-- An item fails at the token at the cursor. -/
theorem blames_of_item {d : Diagnostic} (hpos : pos ≤ tokens.length)
    (h : item tokens (limit tokens) pos = some (.error d, pos')) :
    Tree.Blames d (current tokens pos') := by
  obtain ⟨rest, hread, hfaces⟩ := readItem_of_item hpos h
  rw [hfaces.current]
  exact Tree.blames_of_readItem hread

end

/-! ## Turns -/

/-- A fault: what is reported, at which position, and where reading goes on. -/
structure Slip where
  diagnostic : Diagnostic
  pos : Nat
  next : Nat

/-- What comes of a turn. -/
inductive Turn where
  | tree (t : Tree)
  | slip (s : Slip)

namespace Turn

def tree? : Turn → Option Tree
  | tree t => some t
  | slip _ => none

def slip? : Turn → Option Slip
  | tree _ => none
  | slip s => some s

end Turn

/-- The faults among turns. -/
def slips (turns : List Turn) : List Slip := turns.filterMap Turn.slip?

/-- What is found in turns. -/
def found (turns : List Turn) : Tree.Program :=
  ⟨turns.filterMap Turn.tree?, (slips turns).map Slip.diagnostic⟩

/-- `Turns tokens start turns stop`: from `start` on the cursor takes these turns, and stops. -/
inductive Turns (tokens : List Token) : Nat → List Turn → Nat → Prop
  | done {start : Nat} : atEnd tokens start = true → Turns tokens start [] start
  | tree {start next stop : Nat} {t : Tree} {turns : List Turn} :
      atEnd tokens start = false → item tokens (limit tokens) start = some (.ok t, next) →
      Turns tokens next turns stop → Turns tokens start (.tree t :: turns) stop
  | slip {start stop : Nat} {s : Slip} {turns : List Turn} :
      atEnd tokens start = false →
      item tokens (limit tokens) start = some (.error s.diagnostic, s.pos) →
      resume tokens (limit tokens) s.pos = some s.next →
      Turns tokens s.next turns stop → Turns tokens start (.slip s :: turns) stop

/-- `s.Exact tokens`: the fault is at a token, an end mark at most, and says its line and place; and
reading goes on at the nearest boundary behind it. -/
structure Slip.Exact (tokens : List Token) (s : Slip) : Prop where
  within : s.pos ≤ endOf tokens
  line : s.diagnostic.line = (current tokens s.pos).line
  place : s.diagnostic.place = (current tokens s.pos).place
  resumes : s.pos ≠ endOf tokens → IsLeast {q | s.pos < q ∧ Boundary tokens q} s.next

namespace Turns

variable {tokens : List Token} {start stop : Nat} {turns : List Turn}

/-- A turn that fails: the fault is exact, and the next turn starts further on. -/
theorem exact_of_item {s : Slip} (hstart : start ≤ endOf tokens)
    (hmore : atEnd tokens start = false)
    (hitem : item tokens (limit tokens) start = some (.error s.diagnostic, s.pos))
    (hresume : resume tokens (limit tokens) s.pos = some s.next) :
    s.Exact tokens ∧ start ≤ s.pos ∧ start < s.next ∧ s.next ≤ endOf tokens := by
  obtain ⟨hle, hwithin⟩ := moves_item hitem
  obtain ⟨-, hnext⟩ := moves_resume hresume
  have hblames := blames_of_item (Nat.le_trans hstart List.findIdx_le_length) hitem
  have hresumes : s.pos ≠ endOf tokens → IsLeast {q | s.pos < q ∧ Boundary tokens q} s.next :=
    fun hne => isLeast_resume hresume (Nat.lt_of_le_of_ne (hwithin hstart) hne)
  refine ⟨⟨hwithin hstart, hblames.line, hblames.place, hresumes⟩, hle, ?_,
    hnext (hwithin hstart)⟩
  -- a fault at the end leaves the cursor there, but this turn did not start at the end
  by_cases hend : s.pos = endOf tokens
  · rw [hend] at hresume
    rw [resume_end hresume]
    refine Nat.lt_of_le_of_ne hstart fun heq => ?_
    rw [(atEnd_iff hstart).2 heq] at hmore
    cases hmore
  · exact Nat.lt_of_le_of_lt hle (hresumes hend).1.1

/-- Turns go on to the end, and each of them uses up a token. -/
theorem length_le (h : Turns tokens start turns stop) (hstart : start ≤ endOf tokens) :
    stop = endOf tokens ∧ start + turns.length ≤ stop := by
  induction h with
  | done hend => exact ⟨(atEnd_iff hstart).1 hend, Nat.le_refl _⟩
  | tree hmore hitem _ ih =>
    have hlt := item_lt (Nat.le_trans hstart List.findIdx_le_length) hitem
    obtain ⟨hstop, hlen⟩ := ih ((moves_item hitem).2 hstart)
    rw [List.length_cons]
    exact ⟨hstop, by omega⟩
  | slip hmore hitem hresume _ ih =>
    obtain ⟨-, -, hlt, hnext⟩ := exact_of_item hstart hmore hitem hresume
    obtain ⟨hstop, hlen⟩ := ih hnext
    rw [List.length_cons]
    exact ⟨hstop, by omega⟩

/-- No turn is taken at the end. -/
theorem eq_nil (h : Turns tokens (endOf tokens) turns stop) : turns = [] := by
  obtain ⟨hstop, hlen⟩ := h.length_le (Nat.le_refl _)
  exact List.eq_nil_of_length_eq_zero (by omega)

/-- The faults are exact and none is in front of the place where the turns start. -/
theorem exact (h : Turns tokens start turns stop) (hstart : start ≤ endOf tokens) :
    ∀ s ∈ slips turns, s.Exact tokens ∧ start ≤ s.pos := by
  induction h with
  | done => simp [slips]
  | tree hmore hitem _ ih =>
    obtain ⟨hle, hnext⟩ := moves_item hitem
    intro s hs
    obtain ⟨hexact, hpos⟩ := ih (hnext hstart) s hs
    exact ⟨hexact, Nat.le_trans hle hpos⟩
  | slip hmore hitem hresume _ ih =>
    obtain ⟨hexact, hpos, hlt, hnext⟩ := exact_of_item hstart hmore hitem hresume
    intro s' hs'
    rcases List.mem_cons.1 hs' with rfl | hs'
    · exact ⟨hexact, hpos⟩
    · obtain ⟨hexact', hpos'⟩ := ih hnext s' hs'
      exact ⟨hexact', Nat.le_of_lt (Nat.lt_of_lt_of_le hlt hpos')⟩

/-- The faults are at different tokens, in order. -/
theorem sorted (h : Turns tokens start turns stop) (hstart : start ≤ endOf tokens) :
    ((slips turns).map Slip.pos).Pairwise (· < ·) := by
  induction h with
  | done => exact .nil
  | tree hmore hitem _ ih => exact ih ((moves_item hitem).2 hstart)
  | @slip start stop s turns hmore hitem hresume hturns ih =>
    obtain ⟨hexact, hpos, hlt, hnext⟩ := exact_of_item hstart hmore hitem hresume
    refine List.pairwise_cons.2 ⟨?_, ih hnext⟩
    rw [List.forall_mem_map]
    intro s' hs'
    have hpos' : s.next ≤ s'.pos := (hturns.exact hnext s' hs').2
    by_cases hend : s.pos = endOf tokens
    · -- behind a fault at the end no turn is left
      rw [hend] at hresume
      rw [resume_end hresume] at hturns
      rw [hturns.eq_nil] at hs'
      cases hs'
    · exact Nat.lt_of_lt_of_le (hexact.resumes hend).1.1 hpos'

end Turns

theorem found_tree (t : Tree) (turns : List Turn) :
    found (.tree t :: turns) = (found turns).push (.ok t) := rfl

theorem found_slip (s : Slip) (turns : List Turn) :
    found (.slip s :: turns) = (found turns).push (.error s.diagnostic) := rfl

/-- Every turn finds a tree or a diagnostic. -/
theorem length_found (turns : List Turn) :
    (found turns).trees.length + (found turns).diagnostics.length = turns.length := by
  induction turns with
  | nil => rfl
  | cons turn turns ih =>
    rw [List.length_cons, ← ih]
    cases turn with
    | tree t =>
      simp only [found_tree, Tree.Program.push, List.length_cons]
      omega
    | slip s => rfl

/-- From every place in front of some tokens, turns are taken to the end; they find what reading by
frames finds in these tokens. -/
theorem exists_turns {tokens : List Token} (rest : List Token) : ∀ pos, pos ≤ endOf tokens →
    Faces tokens pos rest → ∃ turns, Turns tokens pos turns (endOf tokens) ∧
      Tree.readProgram (endLineOf tokens) rest = (found turns, tokens.drop (endOf tokens)) := by
  induction rest using Tree.program_induction (endLineOf tokens) with
  | nil =>
    intro pos hpos hfaces
    have hend : atEnd tokens pos = true := hfaces.atEnd
    obtain rfl := (atEnd_iff hpos).1 hend
    refine ⟨[], .done hend, ?_⟩
    rw [Tree.readProgram_nil, ← hfaces.eq_drop]
    rfl
  | stop tok rest hend =>
    intro pos hpos hfaces
    have hend' : atEnd tokens pos = true := hfaces.atEnd.trans hend
    obtain rfl := (atEnd_iff hpos).1 hend'
    refine ⟨[], .done hend', ?_⟩
    rw [Tree.readProgram_end hend, ← hfaces.eq_drop]
    rfl
  | step tok rest outcome more hend hmore hturn ih =>
    intro pos hpos hfaces
    have hat : atEnd tokens pos = false := hfaces.atEnd.trans hend
    obtain ⟨stop, hitem, hstop⟩ := item_eq (enough_le_limit hfaces) hfaces
    rw [Tree.readProgram_turn hend hturn]
    rcases hread : Tree.readItem (endLineOf tokens) (tok :: rest) with ⟨d | t, left⟩
    · rw [hread] at hitem hstop
      obtain ⟨rfl, rfl⟩ : .error d = outcome ∧ Tree.recover left = more := by
        simpa [Tree.turn, hread] using hturn
      have hshort : left.length < limit tokens := by
        have hleft : left.length ≤ tokens.length := hstop.length_le
        unfold limit
        omega
      obtain ⟨next, hresume, hnext⟩ := resume_eq hshort hstop
      have hle : next ≤ endOf tokens := (moves_resume hresume).2 ((moves_item hitem).2 hpos)
      obtain ⟨turns, hturns, hfound⟩ := ih next hle hnext
      refine ⟨.slip ⟨d, stop, next⟩ :: turns, .slip hat hitem hresume hturns, ?_⟩
      rw [hfound, found_slip]
    · rw [hread] at hitem hstop
      obtain ⟨rfl, rfl⟩ : .ok t = outcome ∧ left = more := by
        simpa [Tree.turn, hread] using hturn
      obtain ⟨turns, hturns, hfound⟩ := ih stop ((moves_item hitem).2 hpos) hstop
      refine ⟨.tree t :: turns, .tree hat hitem hturns, ?_⟩
      rw [hfound, found_tree]

/-- Of numbers in order, none but the last reaches a bound on all of them. -/
theorem lt_of_mem_dropLast {positions : List Nat} {bound : Nat}
    (hsorted : positions.Pairwise (· < ·)) (hbound : ∀ i ∈ positions, i ≤ bound) :
    ∀ i ∈ positions.dropLast, i < bound := by
  intro i hi
  have hne : positions ≠ [] := by
    rintro rfl
    cases hi
  rw [← List.dropLast_append_getLast hne] at hsorted
  have hlast := (List.pairwise_append.1 hsorted).2.2 i hi _ (List.mem_singleton_self _)
  exact Nat.lt_of_lt_of_le hlast (hbound _ (List.getLast_mem hne))

/-- **Faults are in order, and recovery is exact.** Over any tokens the cursor takes turns from the
first token to the end. They find the trees and the diagnostics of the program; each diagnostic is
at a token further on than the one before, at the end only if it is the last, with the line and the
place of that token; and the turn behind it starts at the nearest boundary. There are no more trees
and diagnostics than tokens in front of the end. -/
theorem exists_turns_exact (tokens : List Token) :
    ∃ turns : List Turn, Turns tokens 0 turns (endOf tokens) ∧
      Tree.parseProgram tokens
        = ⟨turns.filterMap Turn.tree?, (slips turns).map Slip.diagnostic⟩ ∧
      (∀ depth, limit tokens ≤ depth →
        program tokens depth 0 = some (Tree.parseProgram tokens, endOf tokens)) ∧
      (Reading.start tokens).program.2.rest = tokens.drop (endOf tokens) ∧
      ((slips turns).map Slip.pos).Pairwise (· < ·) ∧
      (∀ s ∈ slips turns, s.Exact tokens) ∧
      (∀ i ∈ ((slips turns).map Slip.pos).dropLast, i < endOf tokens) ∧
      (Tree.parseProgram tokens).trees.length + (Tree.parseProgram tokens).diagnostics.length
        ≤ endOf tokens := by
  have hstart : 0 ≤ endOf tokens := Nat.zero_le _
  obtain ⟨turns, hturns, hread⟩ := exists_turns tokens 0 hstart (Faces.start tokens)
  have hfound : Tree.parseProgram tokens = found turns := by
    rw [Tree.parseProgram_eq, hread]
  have hrest : (Reading.start tokens).program.2.rest = tokens.drop (endOf tokens) :=
    congrArg Prod.snd hread
  have hexact := hturns.exact hstart
  have hsorted := hturns.sorted hstart
  refine ⟨turns, hturns, hfound, ?_, hrest, hsorted, fun s hs => (hexact s hs).1, ?_, ?_⟩
  · intro depth hdepth
    obtain ⟨pos', hrun, hfaces⟩ := program_eq hdepth (Faces.start tokens)
    have hend : pos' = endOf tokens := by
      rw [show (⟨endLineOf tokens, tokens⟩ : Reading).program.2.rest = _ from hrest] at hfaces
      exact hfaces.unique (.drop List.findIdx_le_length)
    rw [hrun, hend]
    rfl
  · refine lt_of_mem_dropLast hsorted ?_
    rw [List.forall_mem_map]
    exact fun s hs => (hexact s hs).1.within
  · rw [hfound, length_found]
    have hlen := (hturns.length_le hstart).2
    omega

end Reckoner.Descent
