import ScopedLisp.Number.Layout
import ScopedLisp.Number.Literal
import ScopedLisp.Proofs.Printing.Doubles
import ScopedLisp.Proofs.Reading.Words
import ScopedLisp.Value.Reading

/-! # Numerals

Printed finite numbers are numerals: digits, and after a point more digits if there are any. A
numeral is a decimal literal whatever its sign, and the literal means the number that was printed.
The three texts that are no numerals, those of the infinities and of not-a-number, are no literals
either. -/

namespace ScopedLisp
open Text

theorem Token.isAtomChar_of_isDigit {c : Char} (h : c.isDigit = true) : isAtomChar c = true := by
  have hdigit : 48 ≤ c.toNat ∧ c.toNat ≤ 57 := Char.isDigit_iff_toNat.1 h
  refine (isAtomChar_iff c).2 ⟨?_, ?_, ?_⟩
  · rintro rfl
    exact absurd h (by decide)
  · rintro rfl
    exact absurd h (by decide)
  · simp [isBlank, blankRanges]
    omega

/-- Digits before a point, at least one, and digits after it. -/
structure Numeral where
  whole : List Char
  fraction : List Char
  whole_ne_nil : whole ≠ []
  isDigit_whole : ∀ c ∈ whole, c.isDigit = true
  isDigit_fraction : ∀ c ∈ fraction, c.isDigit = true

namespace Numeral
open Binary64 Literal

/-- The digits on both sides of a point that is shown if digits follow it. -/
def chars (numeral : Numeral) : List Char :=
  numeral.whole ++ if numeral.fraction = [] then [] else '.' :: numeral.fraction

theorem chars_of_fraction_ne_nil {numeral : Numeral} (h : numeral.fraction ≠ []) :
    numeral.chars = numeral.whole ++ '.' :: numeral.fraction := by
  rw [chars, if_neg h]

/-- All digits as one number. -/
def digits (numeral : Numeral) : Nat :=
  Nat.ofDigitChars 10 (numeral.whole ++ numeral.fraction) 0

theorem splitDigits_append {run rest : List Char} (hrun : ∀ c ∈ run, c.isDigit = true)
    (hrest : Stops Char.isDigit rest) : splitDigits (run ++ rest) = (run, rest) := by
  rw [splitDigits, takeWhile_run hrun hrest, dropWhile_run hrun hrest]

theorem splitMantissa_chars (numeral : Numeral) :
    splitMantissa numeral.chars = some (numeral.whole, numeral.fraction, []) := by
  obtain ⟨whole, fraction, hne, hwhole, hfraction⟩ := numeral
  obtain ⟨c, cs, rfl⟩ := List.exists_cons_of_ne_nil hne
  by_cases hempty : fraction = []
  · have hsplit := splitDigits_append hwhole (stops_nil _)
    rw [List.append_nil] at hsplit
    simp [chars, hempty, splitMantissa, hsplit]
  · have hpoint : Stops Char.isDigit ('.' :: fraction) := stops_cons.2 (by decide)
    have hsplit := splitDigits_append hwhole hpoint
    have hrest := splitDigits_append hfraction (stops_nil _)
    rw [List.append_nil] at hrest
    rw [chars_of_fraction_ne_nil hempty, splitMantissa, hsplit]
    simp [hrest]

theorem isAtomChar_of_mem_chars {numeral : Numeral} {c : Char} (h : c ∈ numeral.chars) :
    Token.isAtomChar c = true := by
  rw [chars, List.mem_append] at h
  rcases h with hwhole | hpoint
  · exact Token.isAtomChar_of_isDigit (numeral.isDigit_whole c hwhole)
  · split at hpoint
    · cases hpoint
    · rcases List.mem_cons.1 hpoint with rfl | hfraction
      · decide
      · exact Token.isAtomChar_of_isDigit (numeral.isDigit_fraction c hfraction)

theorem splitSign_chars (numeral : Numeral) : splitSign numeral.chars = (false, numeral.chars) := by
  obtain ⟨whole, fraction, hne, hwhole, -⟩ := numeral
  obtain ⟨c, cs, rfl⟩ := List.exists_cons_of_ne_nil hne
  have hc := hwhole c (by simp)
  have hplus : c ≠ '+' := by
    rintro rfl
    exact absurd hc (by decide)
  have hminus : c ≠ '-' := by
    rintro rfl
    exact absurd hc (by decide)
  simp [chars, splitSign, hplus, hminus]

/-- The decimal that a numeral with or without a sign spells. -/
def decimal (numeral : Numeral) (negative : Bool) : Decimal :=
  ⟨negative, numeral.digits, -numeral.fraction.length⟩

/-- A numeral with or without a sign is a literal. -/
theorem decimal?_chars (numeral : Numeral) (negative : Bool) :
    decimal? (if negative then '-' :: numeral.chars else numeral.chars) =
      some (numeral.decimal negative) := by
  cases negative with
  | false => simp [decimal?, splitSign_chars, splitMantissa_chars, exponent?, decimal, digits]
  | true =>
    have hsign : splitSign ('-' :: numeral.chars) = (true, numeral.chars) := rfl
    simp [decimal?, hsign, splitMantissa_chars, exponent?, decimal, digits]

theorem isDigit_replicate_zero (n : Nat) : ∀ c ∈ List.replicate n '0', c.isDigit = true := by
  intro c hc
  rw [List.eq_of_mem_replicate hc]
  decide

section Layout
variable {run : List Char} (hne : run ≠ []) (hrun : ∀ c ∈ run, c.isDigit = true)

/-- Digits filled up with zeros before the point. -/
def filled (zeros : Nat) : Numeral where
  whole := run ++ List.replicate zeros '0'
  fraction := []
  whole_ne_nil := by simp [hne]
  isDigit_whole := List.forall_mem_append.2 ⟨hrun, isDigit_replicate_zero zeros⟩
  isDigit_fraction := by simp

/-- Digits with the point between two of them. -/
def parted (place : Nat) (hpos : 0 < place) : Numeral where
  whole := run.take place
  fraction := run.drop place
  whole_ne_nil := by
    rw [ne_eq, List.take_eq_nil_iff, not_or]
    exact ⟨Nat.ne_of_gt hpos, hne⟩
  isDigit_whole c hc := hrun c (List.mem_of_mem_take hc)
  isDigit_fraction c hc := hrun c (List.mem_of_mem_drop hc)

/-- Digits behind the point and more zeros. -/
def shifted (zeros : Nat) : Numeral where
  whole := ['0']
  fraction := List.replicate zeros '0' ++ run
  whole_ne_nil := by simp
  isDigit_whole := isDigit_replicate_zero 1
  isDigit_fraction := List.forall_mem_append.2 ⟨isDigit_replicate_zero zeros, hrun⟩

include hne hrun in
/-- Digits laid out without an exponent are a numeral. It has as many digits after the point as a
negative exponent says, and a positive one is paid for by zeros before the point. -/
theorem exists_chars_eq_positional (exponent : Int) :
    ∃ numeral : Numeral,
      numeral.chars = Number.positional .plain run exponent ∧
      numeral.digits = Nat.ofDigitChars 10 run 0 * Nat.pow 10 exponent.toNat ∧
      numeral.fraction.length = (-exponent).toNat := by
  by_cases hexponent : 0 ≤ exponent
  · refine ⟨filled hne hrun exponent.toNat, ?_, ?_, ?_⟩
    · simp [filled, chars, Number.positional, Number.Style.plain, hexponent]
    · simp [filled, digits, Nat.ofDigitChars_append, Nat.mul_comm]
    · exact (Int.toNat_of_nonpos (by omega)).symm
  · have hzero : exponent.toNat = 0 := Int.toNat_of_nonpos (by omega)
    have hlength : 0 < run.length := List.length_pos_iff.2 hne
    by_cases hwhole : 0 < (run.length + exponent).toNat
    · refine ⟨parted hne hrun _ hwhole, ?_, ?_, ?_⟩
      · have hfraction : run.drop (run.length + exponent).toNat ≠ [] := by
          rw [ne_eq, List.drop_eq_nil_iff]
          omega
        rw [chars_of_fraction_ne_nil hfraction, parted]
        simp only [Number.positional, if_neg hexponent, if_pos hwhole]
      · simp [parted, digits, hzero]
      · rw [parted, List.length_drop]
        omega
    · refine ⟨shifted hrun (-(run.length + exponent)).toNat, ?_, ?_, ?_⟩
      · simp [shifted, chars, hne, Number.positional, hexponent, hwhole]
      · simp [shifted, digits, hzero, Nat.ofDigitChars_cons, Nat.ofDigitChars_append]
      · rw [shifted, List.length_append, List.length_replicate]
        omega

end Layout

end Numeral

namespace Decimal
open Binary64

theorem magnitude_of_negative (negative other : Bool) (n : Nat) (exponent : Int) :
    (Decimal.mk negative n exponent).magnitude = (Decimal.mk other n exponent).magnitude := by
  unfold magnitude
  rfl

/-- Zeros may be written out instead of an exponent that is not too large to count. -/
theorem magnitude_mul_power (negative : Bool) (n : Nat) {k : Nat} (hk : k < 309) :
    (Decimal.mk negative (n * Nat.pow 10 k) 0).magnitude =
      (Decimal.mk negative n k).magnitude := by
  have hpos : 0 < Nat.pow 10 k := power_pos (by decide) k
  have hone : Nat.pow 10 0 = 1 := rfl
  have hzero : n * Nat.pow 10 k = 0 ↔ n = 0 := by
    rw [Nat.mul_eq_zero, or_iff_left (Nat.ne_of_gt hpos)]
  have hhigh : ¬ (309 : Int) ≤ k := by omega
  have hhigh' : ¬ (309 : Int) ≤ 0 := by decide
  have hlow : ∀ m : Nat, ¬ (k : Int) + (m.log2 : Int) < -326 := by omega
  have hlow' : ∀ m : Nat, ¬ (0 : Int) + (m.log2 : Int) < -326 := by omega
  simp only [magnitude, hzero, if_neg hhigh, if_neg hhigh', if_neg (hlow _), if_neg (hlow' _),
    Int.toNat_natCast, Int.toNat_neg_natCast, Int.neg_zero, Int.toNat_zero, hone, Nat.mul_one]

/-- What a layout without an exponent makes of a decimal. -/
theorem magnitude_positional (negative other : Bool) (n : Nat) {exponent : Int}
    (h : exponent < 309) :
    (Decimal.mk negative (n * Nat.pow 10 exponent.toNat) (-(-exponent).toNat)).magnitude =
      (Decimal.mk other n exponent).magnitude := by
  rw [magnitude_of_negative other negative]
  rcases lt_or_ge exponent 0 with hsign | hsign
  · have hone : Nat.pow 10 0 = 1 := rfl
    have hback : -(((-exponent).toNat : Nat) : Int) = exponent := by omega
    rw [Int.toNat_of_nonpos (Int.le_of_lt hsign), hone, Nat.mul_one, hback]
  · obtain ⟨k, rfl⟩ := Int.eq_ofNat_of_zero_le hsign
    rw [Int.toNat_natCast, Int.toNat_neg_natCast, Int.natCast_zero, Int.neg_zero]
    exact magnitude_mul_power negative n (by omega)

/-- The exponent of what reads back as a finite number is not too large to count. -/
theorem exponent_lt_of_magnitude {d : Decimal} {bits : Nat} (h : d.magnitude = bits)
    (hpos : bits ≠ 0) (hfinite : bits < infinity) : d.exponent < 309 := by
  by_contra hexponent
  rw [magnitude] at h
  split at h
  · exact hpos h.symm
  · rw [if_pos (Int.not_lt.1 hexponent)] at h
    exact Nat.ne_of_lt hfinite h.symm

end Decimal

namespace Number
open Binary64

/-- The text of a finite magnitude is a numeral that reads back. -/
theorem exists_numeral_magnitudeText {bits : Nat} (h : bits < infinity) :
    ∃ numeral : Numeral, magnitudeText .plain bits = numeral.chars ∧
      ∀ negative, (numeral.decimal negative).magnitude = bits := by
  obtain ⟨d, htext, hmagnitude, hexponent⟩ : ∃ d : Decimal,
      magnitudeText .plain bits = positional .plain (Nat.toDigits 10 d.digits) d.exponent ∧
        d.magnitude = bits ∧ d.exponent < 309 := by
    by_cases hzero : bits = 0
    · refine ⟨⟨false, 0, 0⟩, ?_, ?_, by decide⟩
      · simp [magnitudeText, hzero]
      · simp [Decimal.magnitude, hzero]
    · have hback := Decimal.magnitude_shortest h
      refine ⟨Decimal.shortest bits, ?_, hback, Decimal.exponent_lt_of_magnitude hback hzero h⟩
      simp [magnitudeText, hzero, Style.plain]
  obtain ⟨numeral, hchars, hdigits, hfraction⟩ :=
    Numeral.exists_chars_eq_positional (Nat.toDigits_ne_nil (b := 10) (n := d.digits))
      (fun c hc => Nat.isDigit_of_mem_toDigits (by decide) (by decide) hc) d.exponent
  refine ⟨numeral, htext.trans hchars.symm, fun negative => ?_⟩
  rw [Nat.ofDigitChars_ten_toDigits] at hdigits
  rw [Numeral.decimal, hdigits, hfraction, Decimal.magnitude_positional _ d.negative _ hexponent,
    hmagnitude]

/-- The text of a finite number is a literal of that number. -/
theorem decimal?_text {x : Float} (h : x.isFinite = true) :
    ∃ d, Literal.decimal? (text .plain x).toList = some d ∧ d.toFloat = x := by
  rw [isFinite_iff_magnitude_lt] at h
  obtain ⟨numeral, hchars, hmagnitude⟩ := exists_numeral_magnitudeText h
  refine ⟨numeral.decimal (isNegative x), ?_, ?_⟩
  · rw [← Numeral.decimal?_chars, text, String.toList_ofList, chars,
      if_neg (Nat.not_lt.2 (Nat.le_of_lt h)), if_neg (Nat.ne_of_lt h), hchars]
  · rw [Decimal.toFloat, hmagnitude]
    exact ofMagnitude_magnitude x

/-- The text of a number that is not finite is no literal. -/
theorem decimal?_text_of_not_finite {x : Float} (h : ¬ x.isFinite = true) :
    Literal.decimal? (text .plain x).toList = none := by
  rw [isFinite_iff_magnitude_lt, Nat.not_lt] at h
  rw [text, String.toList_ofList, chars]
  split
  · decide +kernel
  · next hlarge =>
    rw [if_pos (Nat.le_antisymm (Nat.not_lt.1 hlarge) h)]
    cases isNegative x <;> decide +kernel

theorem ofAtom_text_eq_iff (x : Float) :
    Value.ofAtom (text .plain x) = .number x ↔ x.isFinite = true := by
  rw [Value.ofAtom]
  by_cases h : x.isFinite = true
  · obtain ⟨d, hliteral, hvalue⟩ := decimal?_text h
    simp [hliteral, hvalue, h]
  · simp [decimal?_text_of_not_finite h, h]

/-- The text of a number is a word. -/
theorem isWord_text (x : Float) : Token.IsWord (text .plain x) := by
  rw [Token.IsWord, ne_eq, ← String.toList_eq_nil_iff, text, String.toList_ofList, chars]
  split
  · exact ⟨by simp, List.all_eq_true.1 (by decide)⟩
  · next hnumber =>
    by_cases hinfinite : magnitude x = infinity
    · rw [if_pos hinfinite]
      cases isNegative x <;> exact ⟨by simp, List.all_eq_true.1 (by decide)⟩
    · obtain ⟨numeral, hchars, -⟩ :=
        exists_numeral_magnitudeText (Nat.lt_of_le_of_ne (Nat.not_lt.1 hnumber) hinfinite)
      have hall : ∀ c ∈ numeral.chars, Token.isAtomChar c = true := fun c hc =>
        Numeral.isAtomChar_of_mem_chars hc
      rw [if_neg hinfinite, hchars]
      cases isNegative x with
      | false => exact ⟨by simp [Numeral.chars, numeral.whole_ne_nil], hall⟩
      | true => exact ⟨by simp, List.forall_mem_cons.2 ⟨by decide, hall⟩⟩

end Number
end ScopedLisp
