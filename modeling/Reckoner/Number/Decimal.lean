import Reckoner.Text.Bytes

/-!
# Reckoner.Number.Decimal — integers in base ten

Writing and reading whole numbers as ASCII digits. Reading undoes writing.
-/

namespace Reckoner.Number

/-- The ASCII digit of a number below ten. -/
def digit (n : Nat) : UInt8 := (48 + n % 10).toUInt8

/-- The value of an ASCII digit. -/
def digitValue (b : UInt8) : Nat := b.toNat - 48

/-- The decimal digits of a number, without leading zeros; zero is one digit. -/
def decimal (n : Nat) : Bytes :=
  if n < 10 then [digit n] else decimal (n / 10) ++ [digit n]
termination_by n
decreasing_by omega

/-- An integer in decimal, with a minus sign in front of a negative one. -/
def decimalInt : Int → Bytes
  | .ofNat n => decimal n
  | .negSucc n => byte '-' :: decimal (n + 1)

/-- The number a string of ASCII digits stands for. -/
def ofDigits (s : Bytes) : Nat := s.foldl (fun n b => 10 * n + digitValue b) 0

theorem digitValue_digit (n : Nat) : digitValue (digit n) = n % 10 := by
  have h : n % 10 < 10 := Nat.mod_lt _ (by decide)
  simp [digitValue, digit, Nat.toUInt8, UInt8.toNat_ofNat']
  omega

/-- Reading a written number gives the number. -/
theorem ofDigits_decimal (n : Nat) : ofDigits (decimal n) = n := by
  induction n using Nat.strongRecOn with
  | _ n ih =>
    rw [decimal]
    split
    · simp [ofDigits, digitValue_digit]
      omega
    · rename_i h
      have := ih (n / 10) (by omega)
      simp only [ofDigits] at this
      simp [ofDigits, List.foldl_append, this, digitValue_digit]
      omega

end Reckoner.Number
