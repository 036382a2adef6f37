import Reckoner.Number.Shortest

/-!
# Reckoner.Proofs.Doubles — doubles by their sign and magnitude

A double is 64 bits: a sign, eleven bits of exponent and 52 bits of mantissa. Arithmetic takes it
apart and puts it together again, and for a finite double nothing is lost on the way
(`exists_signed`). So a finite double is its magnitude with its sign in front
(`ofBits_magnitude`, `neg_ofBits_magnitude`), zero included.

The fraction that a finite magnitude stands for is rounded to that magnitude (`nearestBits_exact`).
The search for a short decimal keeps to decimals that are read back as the magnitude, and on the
finest grid the magnitude itself is one. Hence `bits_shortest`: the decimal that is found is read
back.
-/

namespace Reckoner.Number

open Float.Model (Format UnpackedFloat)
open Float.Model.UnpackedFloat (Sign packComponents pack unpack unpackSign unpackExponent
  unpackMantissa unpackMantissa_packComponents unpackExponent_packComponents)

/-! ## The parts of a double -/

theorem toNat_packComponents (s : Sign) (e : BitVec 11) (m : BitVec 52) :
    (packComponents Format.binary64 s e m).toNat
      = s.toBitVec.toNat * Nat.pow 2 63 + e.toNat * Nat.pow 2 52 + m.toNat := by
  unfold packComponents
  rw [BitVec.toNat_append, BitVec.toNat_append, ← Nat.shiftLeft_add_eq_or_of_lt m.isLt,
    ← Nat.shiftLeft_add_eq_or_of_lt e.isLt, Nat.shiftLeft_eq, Nat.shiftLeft_eq]
  simp only [Nat.pow_eq]
  omega

/-- Every pattern of bits has a sign, an exponent and a mantissa. -/
theorem exists_packComponents (b : BitVec 64) :
    ∃ s e m, b = packComponents Format.binary64 s e m := by
  have hlt := b.isLt
  have hsign : ∃ s : Sign, s.toBitVec.toNat = b.toNat / Nat.pow 2 63 := by
    rcases Nat.lt_or_ge b.toNat (Nat.pow 2 63) with h | h
    · exact ⟨.positive, by rw [Nat.div_eq_of_lt h]; rfl⟩
    · refine ⟨.negative, ?_⟩
      show 1 = _
      simp only [Nat.pow_eq] at h ⊢
      omega
  obtain ⟨s, hs⟩ := hsign
  refine ⟨s, BitVec.ofNat 11 (b.toNat / Nat.pow 2 52), BitVec.ofNat 52 b.toNat, ?_⟩
  apply BitVec.eq_of_toNat_eq
  rw [toNat_packComponents, hs, BitVec.toNat_ofNat, BitVec.toNat_ofNat]
  simp only [Nat.pow_eq]
  omega

theorem unpackSign_packComponents (s : Sign) (e : BitVec 11) (m : BitVec 52) :
    unpackSign (packComponents Format.binary64 s e m) = s.toBitVec := by
  apply BitVec.eq_of_toNat_eq
  have hsign := s.toBitVec.isLt
  have := toNat_packComponents s e m
  unfold unpackSign
  rw [BitVec.toNat_cast, BitVec.extractLsb_toNat, this]
  simp only [Nat.shiftRight_eq_div_pow, Nat.pow_eq]
  have := e.isLt
  have := m.isLt
  omega

theorem toNat_pos {m : BitVec 52} (h : m ≠ 0#52) : 0 < m.toNat :=
  Nat.pos_of_ne_zero fun hzero => h (BitVec.eq_of_toNat_eq hzero)

/-- A mantissa below the implicit bit belongs to the smallest exponent. -/
theorem pack_subnormal (s : Sign) {m : BitVec 52} (hm : 0 < m.toNat) :
    pack Format.binary64 (.finite s m.toNat (-1074) hm)
      = packComponents Format.binary64 s 0#11 m := by
  have hlog : m.toNat.log2 < 52 := (Nat.log2_lt (Nat.ne_of_gt hm)).2 m.isLt
  unfold pack
  rw [if_neg (by decide), if_neg, BitVec.ofNat_toNat, BitVec.setWidth_eq]
  show ¬ m.toNat.log2 + 1 = 53
  omega

theorem toNat_implicit (m : BitVec 52) : (1#1 ++ m).toNat = Nat.pow 2 52 + m.toNat := by
  rw [BitVec.toNat_append, ← Nat.shiftLeft_add_eq_or_of_lt m.isLt, Nat.shiftLeft_eq]
  exact congrArg (· + m.toNat) (Nat.one_mul _)

theorem toNat_implicit_pos (m : BitVec 52) : 0 < (1#1 ++ m).toNat := by
  rw [toNat_implicit]
  exact Nat.add_pos_left (by decide) _

/-- A mantissa with the implicit bit keeps its exponent, and the bit is left out. -/
theorem pack_normal (s : Sign) {e : BitVec 11} (m : BitVec 52) (he : e ≠ -1#11)
    (hm : 0 < (1#1 ++ m).toNat) :
    pack Format.binary64 (.finite s (1#1 ++ m).toNat (e.toNat - 1075) hm)
      = packComponents Format.binary64 s e m := by
  have hvalue := toNat_implicit m
  have hlog : (1#1 ++ m).toNat.log2 = 52 := by
    have := m.isLt
    rw [Nat.log2_eq_iff (Nat.ne_of_gt hm), hvalue]
    simp only [Nat.pow_eq]
    omega
  have hmantissa : BitVec.ofNat 52 (1#1 ++ m).toNat = m := by
    apply BitVec.eq_of_toNat_eq
    have := m.isLt
    rw [BitVec.toNat_ofNat, hvalue]
    simp only [Nat.pow_eq]
    omega
  -- the bias and the places of the mantissa, once taken off, are put back
  have hexponent : ((e.toNat : Int) - 1075 + 1023 + 52).toNat = e.toNat := by omega
  unfold pack
  rw [if_neg, if_pos]
  · show packComponents Format.binary64 s
      (BitVec.ofNat 11 ((e.toNat : Int) - 1075 + 1023 + 52).toNat)
      (BitVec.ofNat 52 (1#1 ++ m).toNat) = _
    rw [hexponent, hmantissa, BitVec.ofNat_toNat, BitVec.setWidth_eq]
  · exact congrArg (· + 1) hlog
  · show ¬ 2 ^ 11 ≤ ((e.toNat : Int) - 1075 + 1023 + 52).toNat + 1
    have : e.toNat ≠ 2047 := fun h => he (BitVec.eq_of_toNat_eq h)
    have := e.isLt
    omega

/-- A finite double is taken apart by its exponent: zero, the magnitudes below the first power of
two, and those with the implicit bit. -/
theorem unpack_packComponents (s : Sign) {e : BitVec 11} {m : BitVec 52} (he : e ≠ -1#11) :
    unpack Format.binary64 (packComponents Format.binary64 s e m) =
      if e = 0#11 then
        if h : m = 0#52 then .zero s
        else .finite s m.toNat (e.toNat - 1075 + 1) (toNat_pos h)
      else .finite s (1#1 ++ m).toNat (e.toNat - 1075) (toNat_implicit_pos m) := by
  have hsign : Sign.ofBitVec (unpackSign (packComponents Format.binary64 s e m)) = s := by
    rw [unpackSign_packComponents]
    cases s <;> rfl
  have hexponent : unpackExponent (packComponents Format.binary64 s e m) = e :=
    unpackExponent_packComponents
  have hmantissa : unpackMantissa (packComponents Format.binary64 s e m) = m :=
    unpackMantissa_packComponents
  generalize packComponents Format.binary64 s e m = b at hsign hexponent hmantissa ⊢
  subst hsign hexponent hmantissa
  exact if_neg he

/-- A finite double is taken apart into a sign and a part that does not depend on the sign. Put
together again, it is the same double. -/
theorem exists_signed {e : BitVec 11} (m : BitVec 52) (he : e ≠ -1#11) :
    ∃ signed : Sign → UnpackedFloat, ∀ s,
      unpack Format.binary64 (packComponents Format.binary64 s e m) = signed s ∧
      (signed s).neg = signed (-s) ∧
      pack Format.binary64 (signed s) = packComponents Format.binary64 s e m := by
  by_cases he0 : e = 0#11
  · subst he0
    by_cases hm0 : m = 0#52
    · subst hm0
      refine ⟨.zero, fun s => ⟨?_, rfl, rfl⟩⟩
      rw [unpack_packComponents s he, if_pos rfl, dif_pos rfl]
    · refine ⟨fun s => .finite s m.toNat (-1074) (toNat_pos hm0),
        fun s => ⟨?_, rfl, pack_subnormal s _⟩⟩
      rw [unpack_packComponents s he, if_pos rfl, dif_neg hm0]
      rfl
  · refine ⟨fun s => .finite s (1#1 ++ m).toNat (e.toNat - 1075) (toNat_implicit_pos m),
      fun s => ⟨?_, rfl, pack_normal s m he _⟩⟩
    rw [unpack_packComponents s he, if_neg he0]

theorem toBits_ofBits {a : UInt64} {s : Sign} {e : BitVec 11} {m : BitVec 52} (he : e ≠ -1#11)
    (h : a.toBitVec = packComponents Format.binary64 s e m) :
    (Float.ofBits a).toBits.toBitVec = packComponents Format.binary64 s e m := by
  obtain ⟨signed, hsigned⟩ := exists_signed m he
  show pack Format.binary64 (unpack Format.binary64 a.toBitVec) = _
  rw [h, (hsigned s).1, (hsigned s).2.2]

theorem toBits_neg {x : Float} {s : Sign} {e : BitVec 11} {m : BitVec 52} (he : e ≠ -1#11)
    (h : x.toBits.toBitVec = packComponents Format.binary64 s e m) :
    (-x).toBits.toBitVec = packComponents Format.binary64 (-s) e m := by
  obtain ⟨signed, hsigned⟩ := exists_signed m he
  show pack Format.binary64 (unpack Format.binary64 x.toBits.toBitVec).neg = _
  rw [h, (hsigned s).1, (hsigned s).2.1, (hsigned (-s)).2.2]

theorem toBits_injective {x y : Float} (h : x.toBits.toBitVec = y.toBits.toBitVec) : x = y := by
  obtain ⟨⟨⟨a⟩, _⟩⟩ := x
  obtain ⟨⟨⟨b⟩, _⟩⟩ := y
  cases (show a = b from h)
  rfl

/-- The bits of a finite double are those of its magnitude, but for the sign. -/
theorem exists_of_isFinite {x : Float} (hx : isFinite x = true) :
    ∃ (s : Sign) (e : BitVec 11) (m : BitVec 52), e ≠ -1#11 ∧
      x.toBits.toBitVec = packComponents Format.binary64 s e m ∧
      (magnitude x).toUInt64.toBitVec = packComponents Format.binary64 .positive e m ∧
      (isNegative x = true ↔ s = .negative) := by
  obtain ⟨s, e, m, hbits⟩ := exists_packComponents x.toBits.toBitVec
  have hvalue : x.toBits.toNat = _ := congrArg BitVec.toNat hbits
  rw [toNat_packComponents] at hvalue
  have he : e.toNat < 2 ^ 11 := e.isLt
  have hm : m.toNat < 2 ^ 52 := m.isLt
  have hmagnitude : magnitude x = e.toNat * Nat.pow 2 52 + m.toNat := by
    unfold magnitude
    simp only [Nat.pow_eq] at hvalue ⊢
    omega
  refine ⟨s, e, m, ?_, hbits, ?_, ?_⟩
  · rintro rfl
    have : magnitude x < infinityBits := of_decide_eq_true hx
    have : (-1#11).toNat = 2047 := rfl
    simp only [infinityBits, Nat.pow_eq] at *
    omega
  · apply BitVec.eq_of_toNat_eq
    rw [toNat_packComponents]
    show (magnitude x) % 2 ^ 64 = 0 * Nat.pow 2 63 + _ + _
    simp only [Nat.pow_eq] at hmagnitude ⊢
    omega
  · unfold isNegative
    cases s with
    | positive =>
      have : Sign.positive.toBitVec.toNat = 0 := rfl
      simp only [Nat.pow_eq, decide_eq_true_eq, reduceCtorEq, iff_false] at hvalue ⊢
      omega
    | negative =>
      have : Sign.negative.toBitVec.toNat = 1 := rfl
      simp only [Nat.pow_eq, decide_eq_true_eq, iff_true] at hvalue ⊢
      omega

theorem isFinite_iff {x : Float} :
    isFinite x = true ↔ isNaN x = false ∧ isInfinite x = false := by
  simp only [isFinite, isNaN, isInfinite, decide_eq_true_eq, decide_eq_false_iff_not,
    beq_eq_false_iff_ne]
  omega

/-- A double without a sign is its magnitude. -/
theorem ofBits_magnitude {x : Float} (hx : isFinite x = true) (hsign : isNegative x = false) :
    Float.ofBits (magnitude x).toUInt64 = x := by
  obtain ⟨s, e, m, he, hbits, hmagnitude, hneg⟩ := exists_of_isFinite hx
  have hs : s = .positive := by
    cases s with
    | positive => rfl
    | negative => exact absurd (hneg.2 rfl) (by simp [hsign])
  apply toBits_injective
  rw [toBits_ofBits he hmagnitude, hbits, hs]

/-- A double with a sign is the negation of its magnitude. -/
theorem neg_ofBits_magnitude {x : Float} (hx : isFinite x = true) (hsign : isNegative x = true) :
    -Float.ofBits (magnitude x).toUInt64 = x := by
  obtain ⟨s, e, m, he, hbits, hmagnitude, hneg⟩ := exists_of_isFinite hx
  apply toBits_injective
  rw [toBits_neg he (toBits_ofBits he hmagnitude), hbits, hneg.1 hsign]
  rfl

/-! ## Rounding a fraction -/

theorem roundHalfEven_mul (q : Nat) {den : Nat} (hden : 0 < den) :
    roundHalfEven (q * den) den = q := by
  unfold roundHalfEven
  rw [Nat.mul_div_cancel q hden, Nat.mul_mod_left]
  exact if_pos hden

theorem roundHalfEven_eq_or (num den : Nat) :
    roundHalfEven num den = num / den ∨ roundHalfEven num den = num / den + 1 := by
  unfold roundHalfEven
  grind

/-- A magnitude counts its mantissa up from the first one of its scale. -/
theorem scale_mul_add_mantissa (n : Nat) : scale n * Nat.pow 2 52 + mantissa n = n := by
  unfold scale mantissa
  simp only [Nat.pow_eq]
  split <;> omega

theorem mantissa_lt (n : Nat) : mantissa n < Nat.pow 2 53 := by
  unfold mantissa
  simp only [Nat.pow_eq]
  split <;> omega

theorem le_mantissa {n : Nat} (h : 0 < scale n) : Nat.pow 2 52 ≤ mantissa n := by
  unfold scale at h
  unfold mantissa
  simp only [Nat.pow_eq] at h ⊢
  split <;> omega

/-- The scale is what the value has above fifty-three bits. -/
theorem log2_units (n : Nat) : (units n).log2 + 1 - 53 = scale n := by
  have hupper : units n < 2 ^ (53 + scale n) := by
    rw [Nat.pow_add]
    exact Nat.mul_lt_mul_of_pos_right (mantissa_lt n) (Nat.two_pow_pos _)
  rcases Nat.eq_zero_or_pos (scale n) with hscale | hscale
  -- a value of the smallest scale may have fewer bits, or none
  · rw [hscale] at hupper ⊢
    rcases Nat.eq_zero_or_pos (units n) with hzero | hpos
    · rw [hzero]
      rfl
    · have := (Nat.log2_lt (Nat.ne_of_gt hpos)).2 hupper
      omega
  · have hlower : 2 ^ (52 + scale n) ≤ units n := by
      rw [Nat.pow_add]
      exact Nat.mul_le_mul_right _ (le_mantissa hscale)
    have hne : units n ≠ 0 := Nat.ne_of_gt (Nat.lt_of_lt_of_le (Nat.two_pow_pos _) hlower)
    have := (Nat.log2_lt hne).2 hupper
    have := (Nat.le_log2 hne).2 hlower
    omega

/-- A fraction that is the value of a magnitude is rounded to that magnitude. -/
theorem nearestBits_exact {num den n : Nat} (hden : 0 < den) (hn : n < infinityBits)
    (h : num * unitsPerOne = units n * den) : nearestBits num den = n := by
  have hround : roundHalfEven (units n * den) (den * Nat.pow 2 (scale n)) = mantissa n := by
    have hsplit : units n * den = mantissa n * (den * Nat.pow 2 (scale n)) := by
      unfold units
      ac_rfl
    rw [hsplit]
    exact roundHalfEven_mul _ (Nat.mul_pos hden (Nat.two_pow_pos _))
  unfold nearestBits
  simp only [h, Nat.mul_div_cancel _ hden, log2_units, hround, scale_mul_add_mantissa]
  exact Nat.min_eq_left (Nat.le_of_lt hn)

/-! ## The search for a short decimal -/

/-- A neighbour that is taken reads back. -/
theorem bits_of_neighbour? {n : Nat} {grid : Int} {d : Decimal} (h : neighbour? n grid = some d) :
    d.bits = n := by
  unfold neighbour? at h
  simp only at h
  split at h
  · rename_i hbelow
    split at h
    · rename_i habove
      cases h
      -- both neighbours read back, and rounding gives one of them
      rcases roundHalfEven_eq_or (stepsOn n grid).1 (stepsOn n grid).2 with hround | hround
      · rw [hround, hbelow]
      · rw [hround, habove]
    · cases h
      exact hbelow
  · split at h
    · rename_i habove
      cases h
      exact habove
    · cases h

theorem unitsPerOne_dvd {k : Nat} (h : 1074 ≤ k) : unitsPerOne ∣ Nat.pow 10 k := by
  unfold unitsPerOne
  generalize 1074 = j at h ⊢
  exact Nat.dvd_trans (Nat.pow_dvd_pow 2 h) ⟨5 ^ k, Nat.mul_pow 2 5 k⟩

/-- Every magnitude lies on the grid `10 ^ -1074`. -/
theorem bits_finest {n : Nat} (hn : n < infinityBits) {g : Nat} (hg : 1074 ≤ g + 1) :
    Decimal.bits ⟨(stepsOn n (.negSucc g)).1 / (stepsOn n (.negSucc g)).2, .negSucc g⟩ = n := by
  have hdvd := Nat.dvd_trans (unitsPerOne_dvd hg)
    (Nat.dvd_mul_left (Nat.pow 10 (g + 1)) (units n))
  simp only [Decimal.bits, stepsOn]
  exact nearestBits_exact (Nat.pow_pos (by decide)) hn (Nat.div_mul_cancel hdvd)

/-- The search ends on the finest grid, if not before. -/
theorem bits_searchFrom {n : Nat} (hn : n < infinityBits) {more : Nat} {grid : Int}
    (h : grid - more = -1074) : (searchFrom n more grid).bits = n := by
  induction more generalizing grid with
  | zero =>
    have hgrid : grid = .negSucc 1073 := by omega
    rw [hgrid]
    exact bits_finest hn (Nat.le_refl _)
  | succ more ih =>
    unfold searchFrom
    cases hfound : neighbour? n grid with
    | some d => exact bits_of_neighbour? hfound
    | none => exact ih (by omega)

/-- The shortest decimal of a magnitude reads back as the magnitude. -/
theorem bits_shortest {n : Nat} (hn : n < infinityBits) : (shortest n).bits = n := by
  unfold shortest
  split
  · rename_i hzero
    subst hzero
    exact nearestBits_exact (by decide) hn (by simp [units, mantissa])
  · refine bits_searchFrom hn ?_
    have : -1074 ≤ coarsestGrid n := by
      unfold coarsestGrid
      omega
    omega

end Reckoner.Number
