import Reckoner.Number.Integer
import Reckoner.Proofs.Munch

/-!
# Reckoner.Proofs.Spellings — which texts are integers and switches

An integer is written as digits in base ten, with a sign in front or without one (`Written`). The
reader stops as soon as the digits so far are too many for a word. Digits further behind only make a
number larger, so it refuses no number that fits (`readDigits_eq_ok_iff`).

Main statements: `readInt_eq_ok_iff` and `readSwitch_eq_ok_iff`.
-/

namespace Reckoner.Number

open Lexeme (Digits)

/-! ## Digits -/

/-- The number that digits stand for behind the digits of `n`. -/
def ofDigitsFrom (n : Nat) (s : Bytes) : Nat := s.foldl (fun n b => 10 * n + digitValue b) n

theorem le_ofDigitsFrom (n : Nat) (s : Bytes) : n ≤ ofDigitsFrom n s := by
  induction s generalizing n with
  | nil => exact Nat.le_refl n
  | cons b rest ih =>
    have hrest := ih (10 * n + digitValue b)
    exact Nat.le_trans (by omega) hrest

theorem readDigits_cons_of_isDigit {b : UInt8} (h : Bytes.isDigit b = true) (n : Nat)
    (rest : Bytes) :
    readDigits 10 false n (b :: rest)
      = if maxWord < 10 * n + digitValue b then .error .outOfRange
        else readDigits 10 false (10 * n + digitValue b) rest := by
  have hrange := (Lexeme.isDigit_iff b).1 h
  have hdigit : anyDigit? b = some (digitValue b) := by rw [anyDigit?, if_pos h, digitValue]
  have hsmall : ¬10 ≤ digitValue b := by
    unfold digitValue
    omega
  simp only [readDigits, hdigit, hsmall, Bool.false_and, Bool.false_eq_true, if_false,
    Nat.mul_comm n 10]

/-- A letter has a value too, but not in base ten. -/
theorem readDigits_cons_of_not_isDigit {b : UInt8} (h : Bytes.isDigit b = false) (n : Nat)
    (rest : Bytes) : readDigits 10 false n (b :: rest) = .error .misspelt := by
  have hlarge : ∀ d ∈ anyDigit? b, 10 ≤ d := by
    intro d hd
    simp only [anyDigit?, h, Bool.false_eq_true, if_false, UInt8.le_iff_toNat_le,
      Bool.and_eq_true, decide_eq_true_eq, UInt8.reduceToNat] at hd
    split at hd
    · cases hd
      omega
    · split at hd
      · cases hd
        omega
      · cases hd
  rw [readDigits]
  cases hdigit : anyDigit? b with
  | none => rfl
  | some d => simp [hlarge d hdigit]

theorem readDigits_eq_ok_iff {n m : Nat} {s : Bytes} (hn : n ≤ maxWord) :
    readDigits 10 false n s = .ok m ↔
      (∀ b ∈ s, Bytes.isDigit b = true) ∧ ofDigitsFrom n s = m ∧ m ≤ maxWord := by
  induction s generalizing n with
  | nil =>
    simp only [readDigits, ofDigitsFrom, List.foldl_nil, Except.ok.injEq]
    grind
  | cons b rest ih =>
    rw [List.forall_mem_cons]
    cases hb : Bytes.isDigit b with
    | false => simp [readDigits_cons_of_not_isDigit hb]
    | true =>
      rw [readDigits_cons_of_isDigit hb]
      have hvalue : ofDigitsFrom n (b :: rest) = ofDigitsFrom (10 * n + digitValue b) rest := rfl
      split
      · next hlarge =>
        -- what follows does not make the number smaller
        have hle := le_ofDigitsFrom (10 * n + digitValue b) rest
        simp
        grind
      · next hsmall => simp [ih (Nat.le_of_not_lt hsmall), hvalue]

theorem readWord_eq_ok_iff {s : Bytes} {m : Nat} :
    readWord 10 s = .ok m ↔ Digits s ∧ ofDigits s = m ∧ m ≤ maxWord := by
  rw [readWord]
  cases s with
  | nil => exact ⟨fun h => (by cases h), fun h => absurd rfl h.1.1⟩
  | cons b rest =>
    rw [List.isEmpty_cons, if_neg Bool.false_ne_true, readDigits_eq_ok_iff (Nat.zero_le maxWord)]
    exact and_congr_left fun _ => ⟨fun h => ⟨List.cons_ne_nil b rest, h⟩, And.right⟩

/-! ## Integers -/

/-- `Written s n`: the text is the number in base ten, with a sign in front or without one. -/
inductive Written : Bytes → Int → Prop
  | bare {digits : Bytes} (h : Digits digits) : Written digits (ofDigits digits)
  | plus {digits : Bytes} (h : Digits digits) : Written (byte '+' :: digits) (ofDigits digits)
  | minus {digits : Bytes} (h : Digits digits) : Written (byte '-' :: digits) (-ofDigits digits)

/-- The integers of 64 bits. -/
def Fits (n : Int) : Prop := -Nat.pow 2 63 ≤ n ∧ n < Nat.pow 2 63

/-- The text is an integer of 64 bits. -/
def IsInteger (s : Bytes) (n : Int) : Prop := Written s n ∧ Fits n

theorem two_pow_pos : 0 < Nat.pow 2 63 ∧ Nat.pow 2 63 ≤ maxWord := by decide

theorem positive_eq_ok_iff {digits : Bytes} {n : Int} :
    readSigned.positive (readWord 10 digits) = .ok n ↔
      Digits digits ∧ n = ofDigits digits ∧ Fits n := by
  have hmax := two_pow_pos
  unfold Fits
  constructor
  · intro h
    cases hword : readWord 10 digits with
    | error r =>
      rw [hword] at h
      cases h
    | ok m =>
      obtain ⟨hdigits, rfl, -⟩ := readWord_eq_ok_iff.1 hword
      simp only [hword, readSigned.positive] at h
      split at h <;> cases h
      exact ⟨hdigits, rfl, by omega, by omega⟩
  · rintro ⟨hdigits, rfl, -, hlt⟩
    rw [readWord_eq_ok_iff.2 ⟨hdigits, rfl, by omega⟩]
    exact if_pos (Int.ofNat_lt.1 hlt)

theorem readInt_minus_eq_ok_iff {digits : Bytes} {n : Int} :
    readInt (byte '-' :: digits) = .ok n ↔ Digits digits ∧ n = -ofDigits digits ∧ Fits n := by
  have hmax := two_pow_pos
  have hbyte : byte '-' = 45 := rfl
  unfold Fits
  simp only [hbyte, readInt, readSigned]
  constructor
  · intro h
    cases hword : readWord 10 digits with
    | error r =>
      rw [hword] at h
      cases h
    | ok m =>
      obtain ⟨hdigits, rfl, -⟩ := readWord_eq_ok_iff.1 hword
      simp only [hword] at h
      split at h <;> cases h
      exact ⟨hdigits, rfl, by omega, by omega⟩
  · rintro ⟨hdigits, rfl, hle, -⟩
    rw [readWord_eq_ok_iff.2 ⟨hdigits, rfl, by omega⟩]
    exact if_pos (by omega)

theorem readInt_of_digits {s : Bytes} (h : Digits s) :
    readInt s = readSigned.positive (readWord 10 s) := by
  obtain ⟨b, rest, rfl⟩ := List.exists_cons_of_ne_nil h.1
  have hb := h.2 b List.mem_cons_self
  unfold readInt readSigned
  split
  · next heq =>
    cases heq
    cases hb
  · next heq =>
    cases heq
    cases hb
  · rfl

/-- **An integer is read just if it is written in decimal** and has at most 64 bits. -/
theorem readInt_eq_ok_iff {s : Bytes} {n : Int} :
    readInt s = .ok n ↔ IsInteger s n := by
  constructor
  · intro h
    unfold readInt readSigned at h
    split at h
    · next rest =>
      obtain ⟨hdigits, rfl, hfits⟩ := positive_eq_ok_iff.1 h
      exact ⟨.plus hdigits, hfits⟩
    · next rest =>
      obtain ⟨hdigits, rfl, hfits⟩ := readInt_minus_eq_ok_iff.1 h
      exact ⟨.minus hdigits, hfits⟩
    · obtain ⟨hdigits, rfl, hfits⟩ := positive_eq_ok_iff.1 h
      exact ⟨.bare hdigits, hfits⟩
  · rintro ⟨hwritten, hfits⟩
    cases hwritten with
    | bare h => exact (readInt_of_digits h).trans (positive_eq_ok_iff.2 ⟨h, rfl, hfits⟩)
    | plus h => exact positive_eq_ok_iff.2 ⟨h, rfl, hfits⟩
    | minus h => exact readInt_minus_eq_ok_iff.2 ⟨h, rfl, hfits⟩

/-! ## Switches -/

/-- How a switch may be written. -/
def switchWords : Bool → List String
  | true => ["1", "t", "T", "TRUE", "true", "True"]
  | false => ["0", "f", "F", "FALSE", "false", "False"]

/-- The text is a switch in this state. -/
def IsSwitch (s : Bytes) (b : Bool) : Prop := s ∈ (switchWords b).map utf8

/-- **A switch is read just if it is written in one of these ways.** -/
theorem readSwitch_eq_ok_iff {s : Bytes} {b : Bool} :
    readSwitch s = .ok b ↔ IsSwitch s b := by
  have hdisjoint : ∀ t ∈ (switchWords false).map utf8, t ∉ (switchWords true).map utf8 := by decide
  have hread : readSwitch s = if s ∈ (switchWords true).map utf8 then .ok true
      else if s ∈ (switchWords false).map utf8 then .ok false else .error .misspelt := by
    simp only [readSwitch, List.any_eq_true, decide_eq_true_eq, ← List.mem_map]
    rfl
  rw [hread]
  by_cases hon : s ∈ (switchWords true).map utf8
  · rw [if_pos hon, Except.ok.injEq]
    cases b with
    | true => exact iff_of_true rfl hon
    | false => exact iff_of_false Bool.true_eq_false.mp fun hoff => hdisjoint s hoff hon
  · rw [if_neg hon]
    split
    · next hoff =>
      cases b with
      | true => exact iff_of_false (by simp) hon
      | false => exact iff_of_true rfl hoff
    · next hoff =>
      cases b with
      | true => exact iff_of_false (by simp) hon
      | false => exact iff_of_false (by simp) hoff

end Reckoner.Number
