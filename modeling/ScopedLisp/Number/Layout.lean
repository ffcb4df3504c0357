import ScopedLisp.Number.Shortest

/-! # Texts of numbers

A finite number is written with the digits of its shortest decimal. Where the point goes, whether a
whole number shows one, and which numbers get an exponent instead are the fields of a style. -/

namespace ScopedLisp.Number
open Binary64

/-- How a number is laid out. -/
structure Style where
  /-- Whether numbers with this exponent of the leading digit are written without an exponent. -/
  positional : Int → Bool
  /-- What stands after a whole number written without an exponent. -/
  wholeEnd : List Char

/-- The style of printed values: never an exponent, and no point in a whole number. -/
def Style.plain : Style where
  positional _ := true
  wholeEnd := []

/-- The style of described values: an exponent from `1e16` on and below `1e-4`, and a whole number
ends in `.0`. -/
def Style.described : Style where
  positional leading := -4 ≤ leading && leading < 16
  wholeEnd := ['.', '0']

/-- Digits with the point put where the exponent says, filled up with zeros. -/
def positional (style : Style) (digits : List Char) (exponent : Int) : List Char :=
  let whole := (digits.length + exponent).toNat
  if 0 ≤ exponent then digits ++ List.replicate exponent.toNat '0' ++ style.wholeEnd
  else if 0 < whole then digits.take whole ++ '.' :: digits.drop whole
  else '0' :: '.' :: List.replicate (-(digits.length + exponent)).toNat '0' ++ digits

/-- Digits with a point after the first one and the exponent of that one. -/
def scientific (digits : List Char) (leading : Int) : List Char :=
  let mantissa :=
    match digits with
    | [] => []
    | [digit] => [digit]
    | digit :: rest => digit :: '.' :: rest
  mantissa ++ 'e' :: (toString leading).toList

/-- The text of a finite magnitude. -/
def magnitudeText (style : Style) (bits : Nat) : List Char :=
  if bits = 0 then positional style ['0'] 0
  else
    let decimal := Decimal.shortest bits
    let digits := Nat.toDigits 10 decimal.digits
    let leading := digits.length + decimal.exponent - 1
    if style.positional leading then positional style digits decimal.exponent
    else scientific digits leading

/-- The characters of a number's text. -/
def chars (style : Style) (x : Float) : List Char :=
  if infinity < magnitude x then "NaN".toList
  else
    let unsigned := if magnitude x = infinity then "inf".toList else magnitudeText style (magnitude x)
    if isNegative x then '-' :: unsigned else unsigned

/-- The text of a number. -/
def text (style : Style) (x : Float) : String :=
  String.ofList (chars style x)

end ScopedLisp.Number
