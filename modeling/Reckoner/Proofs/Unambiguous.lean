import Reckoner.Proofs.Printed
import Reckoner.Suite

/-!
# Reckoner.Proofs.Unambiguous — printed trees can be told apart

A printed tree is made of words, parentheses and spaces. A word (a literal, `group` or the spelling
of an operator) has no byte in it at which a word may stop, so a word and what follows it are found
in their text (`Unbroken.append_inj`). With this a tree is found in the text that it begins, node by
node, and so is what follows it (`Legible.text_append_inj`): a sign in front of an operand and the
same sign between two differ in what comes behind the first operand.

Literals print differently, for they are read back (`Value.Legible.text_injective`); only strings
do not, which are printed as they are and may look like any tree.

Main statement: `treesText_unambiguous`.
-/

namespace Reckoner

/-! ## Words and stops -/

namespace Bytes

/-- Does a word of a printed tree stop in front of this byte? -/
def isStop (b : UInt8) : Bool := [byte ' ', byte '(', byte ')', byte ';'].contains b

/-- A word: it does not stop inside. -/
def Unbroken (s : Bytes) : Prop := s.any isStop = false

instance (s : Bytes) : Decidable (Unbroken s) := inferInstanceAs (Decidable (_ = _))

/-- What may follow a word: nothing, or something that starts with a stop. -/
def Stopped (s : Bytes) : Prop := ∀ b ∈ s.head?, isStop b = true

theorem unbroken_iff {s : Bytes} : Unbroken s ↔ ∀ b ∈ s, isStop b = false := by
  simp [Unbroken]

theorem Unbroken.append {s t : Bytes} (hs : Unbroken s) (ht : Unbroken t) : Unbroken (s ++ t) :=
  unbroken_iff.2 (List.forall_mem_append.2 ⟨unbroken_iff.1 hs, unbroken_iff.1 ht⟩)

theorem stopped_nil : Stopped [] := by
  intro b hb
  cases hb

theorem stopped_cons {b : UInt8} (h : isStop b = true) (s : Bytes) : Stopped (b :: s) := by
  intro c hc
  cases hc
  exact h

/-- A word ends where the bytes that do not stop it end. -/
theorem Unbroken.takeWhile_eq {word rest : Bytes} (hword : Unbroken word) (hrest : Stopped rest) :
    (word ++ rest).takeWhile (fun b => !isStop b) = word := by
  have hstop : rest.takeWhile (fun b => !isStop b) = [] := by
    cases rest with
    | nil => rfl
    | cons b rest => exact List.takeWhile_cons_of_neg (by simp [hrest b rfl])
  have hinside : ∀ b ∈ word, (!isStop b) = true := fun b hb => by simp [unbroken_iff.1 hword b hb]
  rw [List.takeWhile_append_of_pos hinside, hstop, List.append_nil]

/-- **A word at the front of a text is found in it**, with what follows. -/
theorem Unbroken.append_inj {word word' rest rest' : Bytes} (hword : Unbroken word)
    (hword' : Unbroken word') (hrest : Stopped rest) (hrest' : Stopped rest')
    (h : word ++ rest = word' ++ rest') : word = word' ∧ rest = rest' := by
  have heq : word = word' := by
    rw [← hword.takeWhile_eq hrest, h, hword'.takeWhile_eq hrest']
  subst heq
  exact ⟨rfl, List.append_cancel_left h⟩

end Bytes

open Bytes (Unbroken Stopped isStop)

/-! ## Numbers -/

namespace Number

open Float.Model (Format)

/-- A magnitude is the magnitude of the double with its bits. -/
theorem magnitude_ofBits {n : Nat} (h : n < infinityBits) :
    magnitude (Float.ofBits n.toUInt64) = n := by
  obtain ⟨s, e, m, hbits⟩ := exists_packComponents n.toUInt64.toBitVec
  have hlt : n < Nat.pow 2 64 := Nat.lt_trans h (by decide)
  have hn : n.toUInt64.toBitVec.toNat = n := Nat.mod_eq_of_lt hlt
  have hvalue := congrArg BitVec.toNat hbits
  rw [hn, toNat_packComponents] at hvalue
  have he : e ≠ -1#11 := by
    rintro rfl
    have : (-1#11).toNat = 2047 := rfl
    simp only [infinityBits, Nat.pow_eq] at *
    omega
  have hback : (Float.ofBits n.toUInt64).toBits.toNat = n := by
    have hpacked := congrArg BitVec.toNat (toBits_ofBits he hbits)
    rwa [← hbits, hn] at hpacked
  unfold magnitude
  rw [hback]
  simp only [infinityBits, Nat.pow_eq] at *
  omega

/-- A fraction is rounded to a number, be it infinity. -/
theorem isNaN_ofRatio (num den : Nat) : isNaN (ofRatio num den) = false := by
  have hle : nearestBits num den ≤ infinityBits := Nat.min_le_right _ _
  unfold ofRatio
  rcases Nat.eq_or_lt_of_le hle with heq | hlt
  · rw [heq]
    decide +kernel
  · unfold isNaN
    rw [magnitude_ofBits hlt]
    exact decide_eq_false (Nat.not_lt.2 hle)

/-- A double is its sign and its magnitude. -/
theorem eq_of_magnitude_eq {x y : Float} (hmagnitude : magnitude x = magnitude y)
    (hsign : isNegative x = isNegative y) : x = y := by
  apply toBits_injective
  apply BitVec.eq_of_toNat_eq
  have hx : x.toBits.toNat < 2 ^ 64 := x.toBits.toBitVec.isLt
  have hy : y.toBits.toNat < 2 ^ 64 := y.toBits.toBitVec.isLt
  show x.toBits.toNat = y.toBits.toNat
  simp only [magnitude, isNegative, Nat.pow_eq, decide_eq_decide] at hmagnitude hsign
  omega

theorem text_of_isInfinite {x : Float} (h : isInfinite x = true) :
    text x = sign x ++ utf8 "inf" := by
  have hnan : isNaN x = false := by
    simp only [isInfinite, beq_iff_eq] at h
    simp [isNaN, h]
  rw [text, if_neg (by simp [hnan]), if_pos h]

/-- Infinite doubles differ in their signs. -/
theorem eq_of_isInfinite {x y : Float} (hx : isInfinite x = true) (hy : isInfinite y = true)
    (h : text x = text y) : x = y := by
  rw [text_of_isInfinite hx, text_of_isInfinite hy] at h
  have hsign : sign x = sign y := List.append_cancel_right h
  apply eq_of_magnitude_eq
  · rw [beq_iff_eq.1 hx, beq_iff_eq.1 hy]
  · unfold sign at hsign
    cases hnx : isNegative x <;> cases hny : isNegative y <;> simp_all

theorem isStop_of_isDigit {b : UInt8} (h : Bytes.isDigit b = true) : isStop b = false := by
  have hnone : [byte ' ', byte '(', byte ')', byte ';'].all (!Bytes.isDigit ·) = true := by decide
  cases hstop : isStop b with
  | false => rfl
  | true =>
    have hother := List.all_eq_true.1 hnone b (List.contains_iff_mem.1 hstop)
    rw [h] at hother
    cases hother

/-- A number token is a word. -/
theorem unbroken_of_matches {text : Bytes} {kind : TokenKind} {x : Float}
    (h : Lexeme.Matches text (some (kind, .number x))) : Unbroken text := by
  have hdigits : ∀ {digits : Bytes}, Lexeme.Digits digits → Unbroken digits :=
    fun h => Bytes.unbroken_iff.2 fun b hb => isStop_of_isDigit (h.2 b hb)
  cases h with
  | whole h => exact hdigits h
  | decimal h hplaces =>
    have hpoint : Unbroken [byte '.'] := by decide
    exact (hdigits h).append (hpoint.append (hdigits hplaces))

theorem unbroken_text (x : Float) : Unbroken (text x) := by
  have hsign : Unbroken (sign x) := by
    unfold sign
    split <;> decide
  unfold text
  split
  · decide
  · split
    · exact hsign.append (by decide)
    · exact hsign.append (unbroken_of_matches (Decimal.matches_positional _))

end Number

/-! ## Literals -/

/-- Values that their text tells apart: not strings, which are printed as they are, and not what is
no number. -/
def Value.Legible : Value → Prop
  | string _ => False
  | number x => Number.isNaN x = false
  | nil | bool _ => True

namespace Session

/-- An infinite double is printed as something that is no expression. -/
theorem evaluate_text_of_isInfinite {x : Float} (h : Number.isInfinite x = true) :
    ∃ f, evaluate (Number.text x) = .error f := by
  rw [Number.text_of_isInfinite h, Number.sign]
  split
  · exact ⟨_, by with_unfolding_all rfl⟩
  · exact ⟨_, by with_unfolding_all rfl⟩

/-- All other legible values are read back. -/
theorem evaluate_text_of_legible {v : Value} (h : v.Legible) :
    evaluate v.text = .ok v ∨ ∃ x, v = .number x ∧ Number.isInfinite x = true := by
  cases v with
  | nil => exact .inl (evaluate_of_matches (.word rfl (List.all_eq_true.1 (by decide))) rfl)
  | bool b =>
    cases b with
    | false => exact .inl (evaluate_of_matches (.word rfl (List.all_eq_true.1 (by decide))) rfl)
    | true => exact .inl (evaluate_of_matches (.word rfl (List.all_eq_true.1 (by decide))) rfl)
  | number x =>
    cases hinf : Number.isInfinite x with
    | false => exact .inl (evaluate_text (Number.isFinite_iff.2 ⟨h, hinf⟩))
    | true => exact .inr ⟨x, rfl, hinf⟩
  | string s => exact h.elim

end Session

namespace Value

theorem Legible.unbroken_text {v : Value} (h : v.Legible) : Unbroken v.text := by
  cases v with
  | nil => decide
  | bool b => cases b <;> decide
  | number x => exact Number.unbroken_text x
  | string s => exact h.elim

/-- The texts of legible values are not empty: the empty text is no expression. -/
theorem Legible.text_ne_nil {v : Value} (h : v.Legible) : v.text ≠ [] := by
  have hempty : ∃ f, Session.evaluate [] = .error f := ⟨_, by with_unfolding_all rfl⟩
  obtain ⟨f, hf⟩ := hempty
  intro hnil
  rcases Session.evaluate_text_of_legible h with hread | ⟨x, rfl, hx⟩
  · rw [hnil, hf] at hread
    cases hread
  · have hlast : text (number x) = _ := Number.text_of_isInfinite hx
    rw [hlast] at hnil
    exact absurd (List.append_eq_nil_iff.1 hnil).2 (by decide)

/-- A literal does not start with a parenthesis. -/
theorem Legible.append_ne {v : Value} (h : v.Legible) (after rest : Bytes) :
    v.text ++ after ≠ byte '(' :: rest := by
  obtain ⟨b, more, htext⟩ := List.exists_cons_of_ne_nil h.text_ne_nil
  have hunbroken := Bytes.unbroken_iff.1 h.unbroken_text b (htext ▸ List.mem_cons_self)
  rw [htext, List.cons_append]
  intro heq
  rw [(List.cons.inj heq).1] at hunbroken
  exact absurd hunbroken (by decide)

/-- **Legible values have different texts.** -/
theorem Legible.text_injective {v w : Value} (hv : v.Legible) (hw : w.Legible)
    (h : v.text = w.text) : v = w := by
  rcases Session.evaluate_text_of_legible hv with hreadv | ⟨x, rfl, hx⟩
  · rcases Session.evaluate_text_of_legible hw with hreadw | ⟨y, rfl, hy⟩
    · rw [h, hreadw] at hreadv
      exact (Except.ok.inj hreadv).symm
    · obtain ⟨f, hf⟩ := Session.evaluate_text_of_isInfinite hy
      rw [h] at hreadv
      cases hf.symm.trans hreadv
  · obtain ⟨f, hf⟩ := Session.evaluate_text_of_isInfinite hx
    rcases Session.evaluate_text_of_legible hw with hreadw | ⟨y, rfl, hy⟩
    · rw [← h] at hreadw
      cases hf.symm.trans hreadw
    · rw [Number.eq_of_isInfinite hx hy h]

end Value

/-- The value of a number token is a number. -/
theorem Lexeme.legible_of_number {text : Bytes} {v : Value}
    (h : Lexeme.Matches text (some (.number, v))) : v.Legible := by
  generalize hkind : TokenKind.number = kind at h
  cases h with
  | spelling => trivial
  | string => cases hkind
  | whole => exact Number.isNaN_ofRatio _ _
  | decimal => exact Number.isNaN_ofRatio _ _
  | word => trivial

/-! ## Operators -/

instance : DecidablePred TokenKind.IsOperator :=
  fun _ => inferInstanceAs (Decidable (_ ∨ _))

/-- An operator as it is scanned: a token without a value, with one of the spellings that stand for
themselves. -/
structure Token.Sign (op : Token) : Prop where
  spelled : (op.lexeme, op.kind) ∈ Lexeme.spellings
  literal : op.literal = .nil
  operator : op.kind.IsOperator

namespace Token

theorem sign_of_matches {op : Token} (h : Lexeme.Matches op.lexeme (some (op.kind, op.literal)))
    (hop : op.kind.IsOperator) : op.Sign := by
  obtain ⟨kind, lexeme, literal, line⟩ := op
  simp only at h hop
  cases h with
  | spelling h => exact ⟨h, rfl, hop⟩
  | string | whole | decimal => exact absurd hop (by decide)
  | @word b more =>
    have hkeywords : ∀ entry ∈ TokenKind.keywords, ¬ entry.2.IsOperator := by decide
    rcases ofWord_mem (b :: more) with hword | ⟨entry, hmem, hword⟩
    · rw [hword] at hop
      exact absurd hop (by decide)
    · rw [hword] at hop
      exact absurd hop (hkeywords entry hmem)

theorem Sign.unbroken {op : Token} (h : op.Sign) : Unbroken op.lexeme := by
  have hsigns : ∀ entry ∈ Lexeme.spellings, entry.2.IsOperator → Unbroken entry.1 := by decide
  exact hsigns _ h.spelled h.operator

theorem Sign.ne_group {op : Token} (h : op.Sign) : op.lexeme ≠ utf8 "group" := by
  have hsigns : ∀ entry ∈ Lexeme.spellings, entry.1 ≠ utf8 "group" := by decide
  exact hsigns _ h.spelled

/-- Operators of one spelling are the same word. -/
theorem Sign.sameWord {op op' : Token} (h : op.Sign) (h' : op'.Sign)
    (hlexeme : op.lexeme = op'.lexeme) : op.SameWord op' := by
  have hkinds : ∀ entry ∈ Lexeme.spellings, ∀ entry' ∈ Lexeme.spellings,
      entry.1 = entry'.1 → entry.2 = entry'.2 := by decide
  exact ⟨hkinds _ h.spelled _ h'.spelled hlexeme, hlexeme, h.literal.trans h'.literal.symm⟩

end Token

/-! ## Trees -/

namespace Tree

/-- The trees are the same, on whatever lines their operators are. -/
inductive SameWords : Tree → Tree → Prop
  | literal (v : Value) : SameWords (.literal v) (.literal v)
  | group {t t' : Tree} : SameWords t t' → SameWords (.group t) (.group t')
  | unary {op op' : Token} {t t' : Tree} :
      op.SameWord op' → SameWords t t' → SameWords (.unary op t) (.unary op' t')
  | binary {op op' : Token} {l l' r r' : Tree} :
      SameWords l l' → op.SameWord op' → SameWords r r' →
      SameWords (.binary l op r) (.binary l' op' r')

/-- The trees of sources without strings. -/
def Legible : Tree → Prop
  | missing => False
  | literal v => v.Legible
  | group inner => inner.Legible
  | unary op operand => op.Sign ∧ operand.Legible
  | binary left op right => left.Legible ∧ op.Sign ∧ right.Legible

section Text

variable {left right inner operand : Tree} {op : Token} {after : Bytes}

theorem text_group_append : (group inner).text ++ after
    = byte '(' :: (utf8 "group" ++ byte ' ' :: (inner.text ++ byte ')' :: after)) := by
  have hopen : utf8 "(group " = byte '(' :: (utf8 "group" ++ [byte ' ']) := by decide
  rw [text_group, hopen]
  simp

theorem text_unary_append : (unary op operand).text ++ after
    = byte '(' :: (op.lexeme ++ byte ' ' :: (operand.text ++ byte ')' :: after)) := by
  rw [text_unary]
  simp

theorem text_binary_append : (binary left op right).text ++ after
    = byte '(' :: (op.lexeme ++ byte ' ' ::
        (left.text ++ byte ' ' :: (right.text ++ byte ')' :: after))) := by
  rw [text_binary]
  simp

end Text

theorem stopped_space (s : Bytes) : Stopped (byte ' ' :: s) := Bytes.stopped_cons (by decide) s

theorem stopped_close (s : Bytes) : Stopped (byte ')' :: s) := Bytes.stopped_cons (by decide) s

/-- What starts with a parenthesis and a word is a node of that name. -/
theorem Legible.of_open {t : Tree} (h : t.Legible) {name rest after : Bytes}
    (hname : Unbroken name) (heq : t.text ++ after = byte '(' :: (name ++ byte ' ' :: rest)) :
    (∃ inner, t = .group inner ∧ utf8 "group" = name ∧
      inner.text ++ byte ')' :: after = rest) ∨
    (∃ op operand, t = .unary op operand ∧ op.lexeme = name ∧
      operand.text ++ byte ')' :: after = rest) ∨
    ∃ left op right, t = .binary left op right ∧ op.lexeme = name ∧
      left.text ++ byte ' ' :: (right.text ++ byte ')' :: after) = rest := by
  have split : ∀ {word more : Bytes}, Unbroken word →
      byte '(' :: (word ++ byte ' ' :: more) = byte '(' :: (name ++ byte ' ' :: rest) →
      word = name ∧ more = rest := by
    intro word more hword heq
    obtain ⟨hword, hmore⟩ := hword.append_inj hname (stopped_space _) (stopped_space _)
      (List.cons.inj heq).2
    exact ⟨hword, (List.cons.inj hmore).2⟩
  cases t with
  | missing => exact h.elim
  | literal v =>
    rw [text_literal] at heq
    exact absurd heq (Value.Legible.append_ne h _ _)
  | group inner => exact .inl ⟨inner, rfl, split (by decide) (text_group_append ▸ heq)⟩
  | unary op operand =>
    exact .inr (.inl ⟨op, operand, rfl, split h.1.unbroken (text_unary_append ▸ heq)⟩)
  | binary left op right =>
    exact .inr (.inr ⟨left, op, right, rfl, split h.2.1.unbroken (text_binary_append ▸ heq)⟩)

/-- **A tree at the front of a text is found in it**, with what follows. -/
theorem Legible.text_append_inj {t u : Tree} (ht : t.Legible) (hu : u.Legible)
    {after after' : Bytes} (hafter : Stopped after) (hafter' : Stopped after')
    (h : t.text ++ after = u.text ++ after') : t.SameWords u ∧ after = after' := by
  induction t generalizing u after after' with
  | missing => exact ht.elim
  | literal v =>
    rw [text_literal] at h
    cases u with
    | missing => exact hu.elim
    | literal w =>
      rw [text_literal] at h
      obtain ⟨htext, hrest⟩ := Unbroken.append_inj (Value.Legible.unbroken_text ht)
        (Value.Legible.unbroken_text hu) hafter hafter' h
      rw [Value.Legible.text_injective ht hu htext]
      exact ⟨.literal w, hrest⟩
    | group inner => exact absurd (h.trans text_group_append) (Value.Legible.append_ne ht _ _)
    | unary op operand => exact absurd (h.trans text_unary_append) (Value.Legible.append_ne ht _ _)
    | binary left op right =>
      exact absurd (h.trans text_binary_append) (Value.Legible.append_ne ht _ _)
  | group inner ih =>
    rw [text_group_append] at h
    obtain ⟨inner', rfl, -, hrest⟩ | ⟨op, _, rfl, hname, -⟩ | ⟨_, op, _, rfl, hname, -⟩ :=
      hu.of_open (by decide) h.symm
    · have hinner : inner'.Legible := hu
      obtain ⟨hsame, hclose⟩ := ih ht hinner (stopped_close _) (stopped_close _) hrest.symm
      exact ⟨.group hsame, (List.cons.inj hclose).2⟩
    · exact absurd hname hu.1.ne_group
    · exact absurd hname hu.2.1.ne_group
  | unary op operand ih =>
    rw [text_unary_append] at h
    obtain ⟨_, rfl, hname, -⟩ | ⟨op', operand', rfl, hname, hrest⟩ |
        ⟨left, op', right, rfl, hname, hrest⟩ := hu.of_open ht.1.unbroken h.symm
    · exact absurd hname.symm ht.1.ne_group
    · obtain ⟨hsame, hclose⟩ := ih ht.2 hu.2 (stopped_close _) (stopped_close _) hrest.symm
      exact ⟨.unary (ht.1.sameWord hu.1 hname.symm) hsame, (List.cons.inj hclose).2⟩
    · -- one operand ends with the parenthesis, the first of two with a space
      obtain ⟨-, hclose⟩ := ih ht.2 hu.1 (stopped_close _) (stopped_space _) hrest.symm
      exact absurd (List.cons.inj hclose).1 (by decide)
  | binary left op right ihl ihr =>
    rw [text_binary_append] at h
    obtain ⟨_, rfl, hname, -⟩ | ⟨op', operand, rfl, hname, hrest⟩ |
        ⟨left', op', right', rfl, hname, hrest⟩ := hu.of_open ht.2.1.unbroken h.symm
    · exact absurd hname.symm ht.2.1.ne_group
    · obtain ⟨-, hspace⟩ := ihl ht.1 hu.2 (stopped_space _) (stopped_close _) hrest.symm
      exact absurd (List.cons.inj hspace).1 (by decide)
    · obtain ⟨hleft, hspace⟩ := ihl ht.1 hu.1 (stopped_space _) (stopped_space _) hrest.symm
      obtain ⟨hright, hclose⟩ := ihr ht.2.2 hu.2.2 (stopped_close _) (stopped_close _)
        (List.cons.inj hspace).2
      exact ⟨.binary hleft (ht.2.1.sameWord hu.2.1 hname.symm) hright, (List.cons.inj hclose).2⟩

/-- The trees behind the first one, as they are printed on one line. -/
theorem treesText_cons (t : Tree) (rest : List Tree) : Case.treesText (t :: rest)
    = t.text ++ (rest.map text).flatMap (utf8 "; " ++ ·) := rfl

/-- The trees that follow others on a line are found there one by one. -/
theorem forall₂_of_flatMap_eq {ts us : List Tree} (hts : ∀ t ∈ ts, t.Legible)
    (hus : ∀ u ∈ us, u.Legible)
    (h : (ts.map text).flatMap (utf8 "; " ++ ·) = (us.map text).flatMap (utf8 "; " ++ ·)) :
    List.Forall₂ SameWords ts us := by
  have hstopped : ∀ rest : List Tree, Stopped ((rest.map text).flatMap (utf8 "; " ++ ·)) := by
    intro rest
    cases rest with
    | nil => exact Bytes.stopped_nil
    | cons t rest => exact Bytes.stopped_cons (by decide) _
  induction ts generalizing us with
  | nil =>
    cases us with
    | nil => exact .nil
    | cons u us => cases h
  | cons t ts ih =>
    cases us with
    | nil => cases h
    | cons u us =>
      obtain ⟨ht, hts⟩ := List.forall_mem_cons.1 hts
      obtain ⟨hu, hus⟩ := List.forall_mem_cons.1 hus
      simp only [List.map_cons, List.flatMap_cons, List.append_assoc] at h
      obtain ⟨hsame, hrest⟩ := ht.text_append_inj hu (hstopped ts) (hstopped us)
        (List.append_cancel_left h)
      exact .cons hsame (ih hts hus hrest)

theorem Legible.text_ne_nil {t : Tree} (h : t.Legible) : t.text ≠ [] := by
  intro hnil
  cases t with
  | missing => exact h.elim
  | literal v =>
    rw [text_literal] at hnil
    exact Value.Legible.text_ne_nil h hnil
  | group inner => simp at hnil
  | unary op operand => simp at hnil
  | binary left op right => simp at hnil

/-- **Legible trees on one line are found there.** -/
theorem forall₂_of_treesText_eq {ts us : List Tree} (hts : ∀ t ∈ ts, t.Legible)
    (hus : ∀ u ∈ us, u.Legible) (h : Case.treesText ts = Case.treesText us) :
    List.Forall₂ SameWords ts us := by
  have hempty : ∀ {t : Tree} {rest : List Tree}, t.Legible → Case.treesText (t :: rest) ≠ [] := by
    intro t rest ht hnil
    exact ht.text_ne_nil (List.append_eq_nil_iff.1 (treesText_cons t rest ▸ hnil)).1
  cases ts with
  | nil =>
    cases us with
    | nil => exact .nil
    | cons u us => exact absurd h.symm (hempty (hus u List.mem_cons_self))
  | cons t ts =>
    cases us with
    | nil => exact absurd h (hempty (hts t List.mem_cons_self))
    | cons u us =>
      apply forall₂_of_flatMap_eq hts hus
      simp only [List.map_cons, List.flatMap_cons, List.append_assoc]
      exact congrArg (utf8 "; " ++ ·) h

end Tree

/-! ## Sources -/

/-- The trees that are derived from scanned tokens without a string are legible. -/
theorem Grammar.Derives.legible {p : Grammar.Phrase} {ts : List Token} {t : Tree}
    (d : Grammar.Derives p ts t)
    (hmatches : ∀ tok ∈ ts, Lexeme.Matches tok.lexeme (some (tok.kind, tok.literal)))
    (hstring : ∀ tok ∈ ts, tok.kind ≠ .string) : t.Legible := by
  induction d with
  | operand _ ih => exact ih hmatches hstring
  | unsigned _ ih => exact ih hmatches hstring
  | @chain l ls rs op left right _ hop _ ihl ihr =>
    have hkind : op.kind.IsOperator := .inr (by rw [Grammar.level?_eq_some_iff.2 hop]; rfl)
    obtain ⟨hl, hr⟩ := List.forall_mem_append.1 hmatches
    obtain ⟨hmatch, hr⟩ := List.forall_mem_cons.1 hr
    obtain ⟨hl', hr'⟩ := List.forall_mem_append.1 hstring
    exact ⟨ihl hl hl', Token.sign_of_matches hmatch hkind,
      ihr hr (List.forall_mem_cons.1 hr').2⟩
  | @signed op ts t hop _ ih =>
    have hkind : op.kind.IsOperator := .inl (by rcases hop with hop | hop <;> rw [hop] <;> rfl)
    obtain ⟨hmatch, htail⟩ := List.forall_mem_cons.1 hmatches
    exact ⟨Token.sign_of_matches hmatch hkind, ih htail (List.forall_mem_cons.1 hstring).2⟩
  | group _ _ _ ih =>
    have hinside : ∀ {P : Token → Prop} {opening closing : Token} {ts : List Token},
        (∀ tok ∈ opening :: (ts ++ [closing]), P tok) → ∀ tok ∈ ts, P tok :=
      fun h => (List.forall_mem_append.1 (List.forall_mem_cons.1 h).2).1
    exact ih (hinside hmatches) (hinside hstring)
  | @number tok hkind =>
    have hmatch := hmatches tok (List.mem_singleton_self tok)
    rw [hkind] at hmatch
    exact Lexeme.legible_of_number hmatch
  | @string tok hkind => exact absurd hkind (hstring tok (List.mem_singleton_self tok))
  | trueWord | falseWord | nilWord => trivial

namespace Session

theorem legible_of_mem_parse {source : Bytes} {tokens : List Token}
    (hscan : Token.scan source = .ok tokens) (hstring : ∀ tok ∈ tokens, tok.kind ≠ .string) :
    ∀ t ∈ (parse source).1, t.Legible := by
  intro t ht
  obtain ⟨tokens', hscan', used, hused, d⟩ := exists_derives_of_mem_parse ht
  rw [hscan, Except.ok.injEq] at hscan'
  subst hscan'
  obtain ⟨front, hreached, rfl⟩ := Token.scan_eq_ok_iff.1 hscan
  -- the end mark matches nothing, but no expression holds one
  refine d.legible (fun tok htok => ?_) fun tok htok => hstring tok (hused.subset htok)
  rcases List.mem_append.1 (hused.subset htok) with hmem | hmem
  · exact hreached.matches tok hmem
  · rw [List.mem_singleton.1 hmem] at htok
    exact absurd rfl (d.kind_ne _ htok).1

/-- **Printed trees can be told apart.** If two sources without strings have the same printed trees,
they have equally many trees, and these are the same one by one, on whatever lines their operators
are. The sources may have faults: then these are the trees that are left around them. -/
theorem treesText_unambiguous {source source' : Bytes} {tokens tokens' : List Token}
    (hscan : Token.scan source = .ok tokens) (hscan' : Token.scan source' = .ok tokens')
    (hstring : ∀ tok ∈ tokens, tok.kind ≠ .string)
    (hstring' : ∀ tok ∈ tokens', tok.kind ≠ .string)
    (h : Case.treesText (parse source).1 = Case.treesText (parse source').1) :
    (parse source).1.length = (parse source').1.length ∧
      List.Forall₂ Tree.SameWords (parse source).1 (parse source').1 := by
  have hsame := Tree.forall₂_of_treesText_eq (legible_of_mem_parse hscan hstring)
    (legible_of_mem_parse hscan' hstring') h
  exact ⟨hsame.length_eq, hsame⟩

/-- Both kinds of minus, a group and a second tree, on one line and on three. -/
theorem treesText_unambiguous_minus :
    let source := utf8 "-nil-(nil);!true"
    let source' := utf8 "-nil // c\n-\n( nil ); !true;"
    let words (a b : Int) : List Token :=
      [⟨.minus, utf8 "-", .nil, 1⟩, ⟨.nilWord, utf8 "nil", .nil, 1⟩, ⟨.minus, utf8 "-", .nil, a⟩,
        ⟨.leftParen, utf8 "(", .nil, b⟩, ⟨.nilWord, utf8 "nil", .nil, b⟩,
        ⟨.rightParen, utf8 ")", .nil, b⟩, ⟨.semicolon, utf8 ";", .nil, b⟩,
        ⟨.bang, utf8 "!", .nil, b⟩, ⟨.trueWord, utf8 "true", .nil, b⟩]
    Token.scan source = .ok (words 1 1 ++ [.endMark 1]) ∧
      Token.scan source' = .ok (words 2 3 ++ [⟨.semicolon, utf8 ";", .nil, 3⟩, .endMark 3]) ∧
      Case.treesText (parse source).1 = utf8 "(- (- nil) (group nil)); (! true)" ∧
      Case.treesText (parse source').1 = utf8 "(- (- nil) (group nil)); (! true)" ∧
      (parse source).1.length = (parse source').1.length ∧
      List.Forall₂ Tree.SameWords (parse source).1 (parse source').1 := by
  intro source source' words
  have hscan : Token.scan source = .ok (words 1 1 ++ [.endMark 1]) := by with_unfolding_all rfl
  have hscan' : Token.scan source'
      = .ok (words 2 3 ++ [⟨.semicolon, utf8 ";", .nil, 3⟩, .endMark 3]) := by
    with_unfolding_all rfl
  have htext : Case.treesText (parse source).1 = utf8 "(- (- nil) (group nil)); (! true)" := by
    with_unfolding_all rfl
  have htext' : Case.treesText (parse source').1 = utf8 "(- (- nil) (group nil)); (! true)" := by
    with_unfolding_all rfl
  refine ⟨hscan, hscan', htext, htext', treesText_unambiguous hscan hscan' ?_ ?_ ?_⟩
  · decide
  · decide
  · rw [htext, htext']

/-- Strings have to be left out: one may look like two trees. -/
example : Case.treesText (parse (utf8 "\"nil; nil\"")).1
    = Case.treesText (parse (utf8 "nil; nil")).1 := by
  decide +kernel

end Session

end Reckoner
