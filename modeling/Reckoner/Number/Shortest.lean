import Reckoner.Number.Double

/-!
# Reckoner.Number.Shortest — the fewest digits that read back

A decimal grid is the set of multiples of a power of ten. For a finite magnitude the coarsest grid
is sought on which one of its two neighbours reads back as the magnitude; if both do, the nearer
one is taken, and the even one of two equally near. Everything is exact arithmetic on whole
numbers.
-/

namespace Reckoner.Number

/-- A number of the form `digits * 10 ^ grid`. -/
structure Decimal where
  digits : Nat
  grid : Int
  deriving DecidableEq, Repr

/-- The magnitude that `digits * 10 ^ grid` reads back as. -/
def Decimal.bits (d : Decimal) : Nat :=
  match d.grid with
  | .ofNat g => nearestBits (d.digits * Nat.pow 10 g) 1
  | .negSucc g => nearestBits d.digits (Nat.pow 10 (g + 1))

/-- The fraction by which a magnitude counts in steps of `10 ^ grid`. -/
def stepsOn (n : Nat) (grid : Int) : Nat × Nat :=
  match grid with
  | .ofNat g => (units n, unitsPerOne * Nat.pow 10 g)
  | .negSucc g => (units n * Nat.pow 10 (g + 1), unitsPerOne)

/-- The neighbour of a magnitude on a grid that reads back, if there is one. -/
def neighbour? (n : Nat) (grid : Int) : Option Decimal :=
  let (num, den) := stepsOn n grid
  let below : Decimal := ⟨num / den, grid⟩
  let above : Decimal := ⟨num / den + 1, grid⟩
  if below.bits = n then
    if above.bits = n then some ⟨roundHalfEven num den, grid⟩ else some below
  else if above.bits = n then some above
  else none

/-- The first hit on the grids from `10 ^ grid` downwards; the last grid is taken as it is. -/
def searchFrom (n : Nat) : Nat → Int → Decimal
  | 0, grid => ⟨(stepsOn n grid).1 / (stepsOn n grid).2, grid⟩
  | more + 1, grid => (neighbour? n grid).getD (searchFrom n more (grid - 1))

/-- A grid coarser than the magnitude: `x < 2 ^ b` gives `x < 10 ^ g` for the next whole `g` above
`b * log₁₀ 2`, which `30103 / 100000` exceeds by less than the rounding takes away. -/
def coarsestGrid (n : Nat) : Int :=
  (((units n).log2 + 1 : Int) - 1074) * 30103 / 100000 + 1

/-- The shortest decimal of a finite magnitude. The finest grid that can be needed is `10 ^ -1074`,
on which every magnitude lies exactly. -/
def shortest (n : Nat) : Decimal :=
  if n = 0 then ⟨0, 0⟩
  else searchFrom n (coarsestGrid n + 1074).toNat (coarsestGrid n)

end Reckoner.Number
