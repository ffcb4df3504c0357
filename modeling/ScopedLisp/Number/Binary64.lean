/-! # Magnitudes of doubles

The magnitude of a double is its bit pattern without the sign. Here a magnitude is a natural
number: those below `infinity` are finite and ascend with the value they stand for, which is a whole
multiple of the least subnormal. A ratio of natural numbers is rounded to the nearest magnitude in
exact arithmetic, a half going to the even neighbour (`nearest_units`: a value that needs no
rounding keeps its magnitude). -/

namespace ScopedLisp.Binary64

/-- How many magnitudes share one exponent: two to the power 52. -/
def binade : Nat := 0x10000000000000

/-- The bit pattern of the sign: two to the power 63. -/
def signBit : Nat := 0x8000000000000000

/-- The magnitude of infinity; greater ones are not numbers. -/
def infinity : Nat := 0x7FF * binade

/-- The least subnormal is two to the power of minus this. -/
@[irreducible] def finest : Nat := 1074

/-- How many times the least subnormal goes into one. -/
def unitsPerOne : Nat := Nat.pow 2 finest

/-- The value of a finite magnitude as a multiple of the least subnormal. -/
def units (bits : Nat) : Nat :=
  if bits < binade then bits else (binade + bits % binade) * Nat.pow 2 (bits / binade - 1)

/-- A quotient rounded to the nearest whole number, a half to the even neighbour. -/
def roundDiv (num den : Nat) : Nat :=
  let quotient := num / den
  let twice := 2 * (num % den)
  if twice < den ∨ (twice = den ∧ quotient % 2 = 0) then quotient else quotient + 1

/-- The magnitude nearest to `num / den`. The significand keeps 53 bits, or as many as lie above
the least subnormal; a carry out of it is a carry into the exponent, and everything from the
overflow threshold on is infinity. -/
def nearest (num den : Nat) : Nat :=
  let scaled := num * unitsPerOne
  let shift := (scaled / den).log2 - 52
  min (shift * binade + roundDiv scaled (den * Nat.pow 2 shift)) infinity

/-- The magnitude of a double. -/
def magnitude (x : Float) : Nat := x.toBits.toNat % signBit

/-- Whether the sign bit of a double is set. -/
def isNegative (x : Float) : Bool := signBit ≤ x.toBits.toNat

/-- The double with a given sign and magnitude. -/
def ofMagnitude (negative : Bool) (bits : Nat) : Float :=
  Float.ofBits (.ofNat (bits + if negative then signBit else 0))

theorem power_pos {base : Nat} (h : 0 < base) (n : Nat) : 0 < Nat.pow base n := Nat.pow_pos h

theorem unitsPerOne_pos : 0 < unitsPerOne := power_pos (by decide) finest

theorem units_of_lt {bits : Nat} (h : bits < binade) : units bits = bits :=
  if_pos h

theorem units_of_le {bits : Nat} (h : binade ≤ bits) :
    units bits = (binade + bits % binade) * Nat.pow 2 (bits / binade - 1) :=
  if_neg (Nat.not_lt.2 h)

theorem units_pos {bits : Nat} (h : 0 < bits) : 0 < units bits := by
  unfold units
  split
  · exact h
  · exact Nat.mul_pos (Nat.add_pos_left (by decide) _) (power_pos (by decide) _)

/-- The significand's length is read off the value: above the subnormals it is 53 bits. -/
theorem log2_units {bits : Nat} (h : binade ≤ bits) :
    (units bits).log2 = 52 + (bits / binade - 1) := by
  have hmod : bits % binade < binade := Nat.mod_lt _ (by decide)
  have hpow : 0 < Nat.pow 2 (bits / binade - 1) := power_pos (by decide) _
  have hu := units_of_le h
  refine (Nat.log2_eq_iff (Nat.pos_iff_ne_zero.1 (units_pos ?_))).2 ⟨?_, ?_⟩
  · exact Nat.lt_of_lt_of_le (by decide) h
  · rw [hu, Nat.pow_add]
    exact Nat.mul_le_mul_right _ (Nat.le_add_right _ _)
  · rw [hu, show 52 + (bits / binade - 1) + 1 = 53 + (bits / binade - 1) by omega, Nat.pow_add]
    refine Nat.mul_lt_mul_of_pos_right ?_ hpow
    exact Nat.lt_of_lt_of_le (Nat.add_lt_add_left hmod _) (by decide)

theorem roundDiv_mul_right (n : Nat) {den : Nat} (h : 0 < den) : roundDiv (n * den) den = n := by
  simp [roundDiv, Nat.mul_div_cancel _ h, h]

/-- A finite magnitude is the nearest one to its own value, whatever the ratio is scaled by. -/
theorem nearest_units {bits : Nat} (h : bits < infinity) {scale : Nat} (hs : 0 < scale) :
    nearest (units bits * scale) (unitsPerOne * scale) = bits := by
  have hden : 0 < unitsPerOne * scale := Nat.mul_pos unitsPerOne_pos hs
  have hmul : units bits * scale * unitsPerOne = units bits * (unitsPerOne * scale) := by
    rw [Nat.mul_assoc, Nat.mul_comm scale]
  rw [nearest, hmul, Nat.mul_div_cancel _ hden]
  rcases Nat.lt_or_ge bits binade with hb | hb
  · have hlog : bits.log2 - 52 = 0 := by
      rcases Nat.eq_zero_or_pos bits with rfl | hpos
      · decide
      · exact Nat.sub_eq_zero_of_le
          (Nat.le_of_lt_succ ((Nat.log2_lt (Nat.pos_iff_ne_zero.1 hpos)).2
            (Nat.lt_trans hb (by decide))))
    have hone : unitsPerOne * scale * Nat.pow 2 0 = unitsPerOne * scale := Nat.mul_one _
    rw [units_of_lt hb, hlog, hone, Nat.zero_mul, Nat.zero_add, roundDiv_mul_right _ hden,
      Nat.min_eq_left (Nat.le_of_lt h)]
  · have hu := units_of_le hb
    have hround : roundDiv (units bits * (unitsPerOne * scale))
        (unitsPerOne * scale * Nat.pow 2 (bits / binade - 1)) = binade + bits % binade := by
      rw [hu, Nat.mul_assoc, Nat.mul_comm (Nat.pow 2 (bits / binade - 1)),
        roundDiv_mul_right _ (Nat.mul_pos hden (power_pos (by decide) _))]
    have hquot : 0 < bits / binade := Nat.div_pos hb (by decide)
    have hbits : (bits / binade - 1) * binade + (binade + bits % binade) = bits := by
      rw [← Nat.add_assoc, ← Nat.succ_mul, Nat.succ_eq_add_one, Nat.sub_add_cancel hquot,
        Nat.div_add_mod']
    rw [log2_units hb, Nat.add_sub_cancel_left, hround, hbits, Nat.min_eq_left (Nat.le_of_lt h)]

end ScopedLisp.Binary64
