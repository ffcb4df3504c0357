import ScopedLisp.Number.Decimal

/-! # Decimal literals

The spelling of a number: an optional sign, digits with an optional fraction or a bare fraction, and
an optional exponent. The letters are those of ASCII, and the spelling covers the whole text, so a
word such as `inf` is no literal. -/

namespace ScopedLisp.Literal

/-- A sign, if one is written, and what follows it. -/
def splitSign : List Char → Bool × List Char
  | '+' :: rest => (false, rest)
  | '-' :: rest => (true, rest)
  | rest => (false, rest)

/-- The leading digits, and what follows them. -/
def splitDigits (cs : List Char) : List Char × List Char :=
  (cs.takeWhile Char.isDigit, cs.dropWhile Char.isDigit)

/-- The digits before the point, the digits after it, and what follows them. Digits before the point
may stand alone or with an empty fraction; without them the fraction must have a digit. -/
def splitMantissa (cs : List Char) : Option (List Char × List Char × List Char) :=
  match splitDigits cs with
  | ([], '.' :: rest) =>
    match splitDigits rest with
    | ([], _) => none
    | (fraction, rest) => some ([], fraction, rest)
  | ([], _) => none
  | (whole, '.' :: rest) =>
    let (fraction, rest) := splitDigits rest
    some (whole, fraction, rest)
  | (whole, rest) => some (whole, [], rest)

/-- The exponent that makes up the rest of a literal. -/
def exponent? : List Char → Option Int
  | [] => some 0
  | mark :: rest =>
    if mark = 'e' ∨ mark = 'E' then
      match splitSign rest with
      | (negative, rest) =>
        match splitDigits rest with
        | ([], _) => none
        | (digits, []) =>
          let size : Int := Nat.ofDigitChars 10 digits 0
          some (if negative then -size else size)
        | (_, _ :: _) => none
    else none

/-- The decimal that a text spells, if it is a literal. -/
def decimal? (cs : List Char) : Option Decimal := do
  let (negative, rest) := splitSign cs
  let (whole, fraction, rest) ← splitMantissa rest
  let exponent ← exponent? rest
  return {
    negative
    digits := Nat.ofDigitChars 10 (whole ++ fraction) 0
    exponent := exponent - fraction.length }

example : decimal? "-1.50e3".toList = some ⟨true, 150, 1⟩ := by decide +kernel
example : decimal? "1.".toList = some ⟨false, 1, 0⟩ := by decide +kernel
example : decimal? "1e".toList = none := by decide +kernel
example : decimal? ".".toList = none := by decide +kernel

end ScopedLisp.Literal
