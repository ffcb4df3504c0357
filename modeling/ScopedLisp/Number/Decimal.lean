import ScopedLisp.Number.Binary64

/-! # Decimals

A signed decimal `± digits * 10 ^ exponent` and the double nearest to it. Every finite magnitude is
itself a decimal, and reading that decimal gives the magnitude back (`magnitude_exact`). -/

namespace ScopedLisp

/-- The number `± digits * 10 ^ exponent`. -/
structure Decimal where
  negative : Bool
  digits : Nat
  exponent : Int
deriving DecidableEq, Repr

namespace Decimal
open Binary64

/-- The magnitude nearest to a decimal. Exponents that settle the answer alone, far above the
greatest double or far below the least one, are answered without building their power of ten. -/
def magnitude (d : Decimal) : Nat :=
  if d.digits = 0 then 0
  else if 309 ≤ d.exponent then infinity
  else if d.exponent + d.digits.log2 < -326 then 0
  else nearest (d.digits * Nat.pow 10 d.exponent.toNat) (Nat.pow 10 (-d.exponent).toNat)

/-- The double nearest to a decimal. -/
def toFloat (d : Decimal) : Float :=
  ofMagnitude d.negative d.magnitude

/-- A finite magnitude written out in full: a power of ten is as many units as a power of five. -/
def exact (bits : Nat) : Decimal :=
  { negative := false, digits := units bits * Nat.pow 5 finest, exponent := -(finest : Int) }

theorem ten_power (n : Nat) : Nat.pow 10 n = Nat.pow 2 n * Nat.pow 5 n := Nat.mul_pow 2 5 n

/-- Writing a magnitude out in full and reading it gives it back. -/
theorem magnitude_exact {bits : Nat} (h : bits < infinity) : (exact bits).magnitude = bits := by
  have h5 : 0 < Nat.pow 5 finest := power_pos (by decide) finest
  have hten : Nat.pow 10 finest = unitsPerOne * Nat.pow 5 finest := ten_power finest
  have hone : Nat.pow 10 0 = 1 := rfl
  have hnear : nearest (units bits * Nat.pow 5 finest * Nat.pow 10 (-(finest : Int)).toNat)
      (Nat.pow 10 (- -(finest : Int)).toNat) = bits := by
    rw [Int.neg_neg, Int.toNat_natCast, Int.toNat_neg_natCast, hone, Nat.mul_one, hten]
    exact nearest_units h h5
  rcases Nat.eq_zero_or_pos bits with rfl | hpos
  · have hzero : (exact 0).digits = 0 := Nat.zero_mul _
    rw [magnitude, if_pos hzero]
  · have hdigits : unitsPerOne ≤ units bits * Nat.pow 5 finest :=
      Nat.le_trans (Nat.pow_le_pow_left (by decide) finest)
        (Nat.le_mul_of_pos_left _ (units_pos hpos))
    have hne : units bits * Nat.pow 5 finest ≠ 0 :=
      Nat.pos_iff_ne_zero.1 (Nat.lt_of_lt_of_le unitsPerOne_pos hdigits)
    have hlog : finest ≤ (units bits * Nat.pow 5 finest).log2 := (Nat.le_log2 hne).2 hdigits
    have hhigh : ¬ (309 : Int) ≤ -(finest : Int) := by omega
    have hlow : ¬ -(finest : Int) + (units bits * Nat.pow 5 finest).log2 < -326 := by omega
    rw [magnitude, exact, if_neg hne, if_neg hhigh, if_neg hlow, hnear]

end Decimal
end ScopedLisp
