import ScopedLisp.Number.Decimal

/-! # Shortest decimals

The decimal with the fewest digits that reads back as a given magnitude. Decimals are searched grid
by grid, from coarse to fine: the grid of depth `g` holds the multiples of `10 ^ (g - finest)`. On a
grid only the two neighbours of the value can be the answer. The grid of depth zero holds the value
itself, so the search always ends with a decimal that reads back (`magnitude_shortest`). -/

namespace ScopedLisp.Decimal
open Binary64

/-- The better of the two neighbours on one grid, among those that read back: the nearer one, and
the upper one if both are equally near. -/
def onGrid? (bits depth : Nat) : Option Decimal :=
  let exponent : Int := depth - finest
  let num := units bits * Nat.pow 10 (-exponent).toNat
  let den := unitsPerOne * Nat.pow 10 exponent.toNat
  let lower : Decimal := { negative := false, digits := num / den, exponent }
  let upper : Decimal := { negative := false, digits := num / den + 1, exponent }
  if lower.magnitude = bits ∧ (upper.magnitude ≠ bits ∨ 2 * (num % den) < den) then some lower
  else if upper.magnitude = bits then some upper
  else none

/-- The first answer on the grids from a depth downwards. -/
def fromGrid (bits : Nat) : Nat → Decimal
  | 0 => exact bits
  | depth + 1 => (onGrid? bits (depth + 1)).getD (fromGrid bits depth)

/-- The depth of a power of ten that is not below the value; `30103 / 100000` is a little more than
the decimal logarithm of two. -/
def startDepth (bits : Nat) : Nat :=
  ((units bits).log2 + 1) * 30103 / 100000 + 752

/-- The shortest decimal that reads back as a finite magnitude other than zero. -/
def shortest (bits : Nat) : Decimal :=
  fromGrid bits (startDepth bits)

theorem magnitude_of_onGrid? {bits depth : Nat} {d : Decimal} (h : onGrid? bits depth = some d) :
    d.magnitude = bits := by
  simp only [onGrid?] at h
  split at h
  · next hlower => exact Option.some.inj h ▸ hlower.1
  · split at h
    · next hupper => exact Option.some.inj h ▸ hupper
    · cases h

/-- What the search answers reads back. -/
theorem magnitude_fromGrid {bits : Nat} (h : bits < infinity) (depth : Nat) :
    (fromGrid bits depth).magnitude = bits := by
  induction depth with
  | zero => exact magnitude_exact h
  | succ depth ih =>
    rw [fromGrid]
    cases hgrid : onGrid? bits (depth + 1) with
    | none => exact ih
    | some d => exact magnitude_of_onGrid? hgrid

/-- The shortest decimal of a magnitude reads back as that magnitude. -/
theorem magnitude_shortest {bits : Nat} (h : bits < infinity) : (shortest bits).magnitude = bits :=
  magnitude_fromGrid h _

end ScopedLisp.Decimal
