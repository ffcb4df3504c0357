import Mathlib
import ScopedLisp.Number.Binary64

/-! # Doubles and their magnitudes

A double is put together again from its sign and its magnitude, and it is finite exactly if its
magnitude is below that of infinity. The double nearest to a decimal is a number. -/

namespace ScopedLisp.Binary64
open Float.Model (Format UnpackedFloat)
open Float.Model.UnpackedFloat (unpack unpackExponent unpackExponent_def)

theorem isFinite_unpack_iff (bits : BitVec Format.binary64.numBits) :
    (unpack Format.binary64 bits).isFinite = true ↔ unpackExponent bits ≠ -1#_ := by
  unfold unpack
  simp only
  split
  · split <;> simp_all [UnpackedFloat.isFinite]
  · split
    · split <;> simp_all [UnpackedFloat.isFinite]
    · simp_all [UnpackedFloat.isFinite]

theorem toNat_unpackExponent (bits : BitVec Format.binary64.numBits) :
    (unpackExponent bits).toNat = bits.toNat / 2 ^ 52 % 2 ^ 11 := by
  rw [unpackExponent_def]
  simp [BitVec.extractLsb'_toNat, Nat.shiftRight_eq_div_pow]

theorem toNat_unpackMantissa (bits : BitVec Format.binary64.numBits) :
    (UnpackedFloat.unpackMantissa bits).toNat = bits.toNat % 2 ^ 52 := by
  rw [UnpackedFloat.unpackMantissa_def]
  simp [BitVec.extractLsb'_toNat]

theorem toNat_fullExponent : (-1#(Format.binary64.exponentBits)).toNat = 2047 := by decide

/-- A double is finite if not all bits of its exponent are set. -/
theorem isFinite_iff_magnitude_lt (x : Float) : x.isFinite = true ↔ magnitude x < infinity := by
  have hbits : x.toBits.toNat < 2 ^ 64 := x.toBits.toNat_lt
  have hexponent : (@unpackExponent Format.binary64 x.toBits.toBitVec).toNat =
      x.toBits.toNat / 2 ^ 52 % 2 ^ 11 := toNat_unpackExponent x.toBits.toBitVec
  change (unpack Format.binary64 x.toBits.toBitVec).isFinite = true ↔ _
  rw [isFinite_unpack_iff, ne_eq, ← BitVec.toNat_inj, hexponent, toNat_fullExponent]
  simp only [magnitude, infinity, signBit, binade]
  omega

theorem ofMagnitude_magnitude (x : Float) : ofMagnitude (isNegative x) (magnitude x) = x := by
  have hbits : x.toBits.toNat < 2 ^ 64 := x.toBits.toNat_lt
  have hsum : magnitude x + (if isNegative x then signBit else 0) = x.toBits.toNat := by
    by_cases hsign : signBit ≤ x.toBits.toNat
    · rw [if_pos (by simpa [isNegative] using hsign), magnitude]
      simp only [signBit] at hsign ⊢
      omega
    · rw [if_neg (by simpa [isNegative] using hsign), magnitude,
        Nat.mod_eq_of_lt (Nat.lt_of_not_le hsign), Nat.add_zero]
  rw [ofMagnitude, hsum, UInt64.ofNat_toNat, Float.ofBits_toBits]

/-- A double is finite if it is neither infinite nor not-a-number. -/
theorem isFinite_of_not_nan_of_not_inf {x : Float} (hnan : x.isNaN = false) (hinf : x.isInf = false) :
    x.isFinite = true := by
  change x.toModel.unpack.isNaN = false at hnan
  change x.toModel.unpack.isInf = false at hinf
  change x.toModel.unpack.isFinite = true
  cases h : x.toModel.unpack <;> simp_all [UnpackedFloat.isNaN, UnpackedFloat.isInf,
    UnpackedFloat.isFinite]

/-- Which bit patterns make not-a-number. -/
theorem isNaN_ofBits_iff (bits : UInt64) :
    (Float.ofBits bits).isNaN = true ↔
      @UnpackedFloat.isNaNBits Format.binary64 bits.toBitVec = true := by
  have hpack := @UnpackedFloat.pack_unpack Format.binary64 bits.toBitVec
  change (unpack Format.binary64 (UnpackedFloat.pack Format.binary64
    (unpack Format.binary64 bits.toBitVec))).isNaN = true ↔ _
  rw [UnpackedFloat.isNaN_unpack_iff_of_valid UnpackedFloat.valid_pack, hpack]
  split
  · next h => exact iff_of_true rfl h
  · next h =>
    refine ⟨fun heq => absurd ?_ h, fun hbits => absurd hbits h⟩
    rw [heq]
    exact UnpackedFloat.isNaNBits_packedNaN

/-- No magnitude up to infinity makes not-a-number. -/
theorem isNaN_ofMagnitude (negative : Bool) {bits : Nat} (h : bits ≤ infinity) :
    (ofMagnitude negative bits).isNaN = false := by
  let pattern : BitVec Format.binary64.numBits := .ofNat 64 (bits + if negative then signBit else 0)
  have hpattern : pattern.toNat = bits + if negative then signBit else 0 := by
    change (BitVec.ofNat 64 _).toNat = _
    rw [BitVec.toNat_ofNat, Nat.mod_eq_of_lt]
    simp only [infinity, binade, signBit] at h ⊢
    split <;> omega
  have hmantissa : (0#(Format.binary64.mantissaBitsWithoutImplicit)).toNat = 0 := rfl
  rw [← Bool.not_eq_true, ofMagnitude, isNaN_ofBits_iff]
  change ¬ UnpackedFloat.isNaNBits pattern = true
  rw [UnpackedFloat.isNaNBits, decide_eq_true_eq, ne_eq, ← BitVec.toNat_inj, ← BitVec.toNat_inj,
    toNat_unpackExponent, toNat_unpackMantissa, toNat_fullExponent, hmantissa, hpattern]
  simp only [infinity, binade, signBit] at h ⊢
  split <;> omega

end ScopedLisp.Binary64
