import Mathlib.Computability.RegularExpressions
import ScopedLisp.Proofs.Printing.Numerals

/-! # The language of decimal literals

The spellings of numbers are a regular language. A literal is split greedily: each part takes as many
characters as it can and never gives one back. No spelling is missed by that, since none of its parts
can begin with a character that would continue the part before, and none is added, since the parts are
put together in the order of the pattern and nothing may be left behind them. -/

namespace ScopedLisp
open Text

namespace Literal
open RegularExpression

/-- Any one of some characters. -/
def oneOf (cs : List Char) : RegularExpression Char :=
  (cs.map char).sum

/-- What an expression matches, or nothing. -/
def optional (P : RegularExpression Char) : RegularExpression Char :=
  1 + P

/-- A digit of ASCII. -/
def digit : RegularExpression Char :=
  oneOf ['0', '1', '2', '3', '4', '5', '6', '7', '8', '9']

/-- Digits, at least one. -/
def digits : RegularExpression Char :=
  digit * digit.star

/-- A sign, if one is written. -/
def sign : RegularExpression Char :=
  optional (oneOf ['+', '-'])

/-- Digits with an optional fraction, which may be empty after the point, or a bare fraction. -/
def mantissa : RegularExpression Char :=
  digits * optional (char '.' * digit.star) + char '.' * digits

/-- A power of ten, if one is written. -/
def power : RegularExpression Char :=
  optional (oneOf ['e', 'E'] * (sign * digits))

/-- The spelling of a number. -/
def pattern : RegularExpression Char :=
  sign * (mantissa * power)

/-! ### What the parts of the pattern match -/

variable {x cs rest : List Char}

theorem mem_oneOf : x ∈ (oneOf cs).matches' ↔ ∃ c ∈ cs, x = [c] := by
  induction cs with
  | nil => exact ⟨False.elim, by simp⟩
  | cons c cs ih =>
    rw [oneOf, List.map_cons, List.sum_cons, matches'_add, Language.mem_add, ← oneOf, ih,
      List.exists_mem_cons_iff]
    rfl

theorem mem_optional {P : RegularExpression Char} :
    x ∈ (optional P).matches' ↔ x = [] ∨ x ∈ P.matches' := by
  rw [optional, matches'_add, Language.mem_add, matches'_epsilon, Language.mem_one]

theorem mem_digit : x ∈ digit.matches' ↔ ∃ c, c.isDigit = true ∧ x = [c] := by
  rw [digit, mem_oneOf]
  refine exists_congr fun c => and_congr_left' ⟨?_, fun h => ?_⟩
  · have hall : ∀ c ∈ ['0', '1', '2', '3', '4', '5', '6', '7', '8', '9'], c.isDigit = true := by
      simp [Char.isDigit]
    exact hall c
  · obtain ⟨hlow, hhigh⟩ : 48 ≤ c.toNat ∧ c.toNat ≤ 57 := Char.isDigit_iff_toNat.1 h
    have hall : ∀ n < 10,
        Char.ofNat (48 + n) ∈ ['0', '1', '2', '3', '4', '5', '6', '7', '8', '9'] := by decide
    have hmem := hall (c.toNat - 48) (by omega)
    rwa [Nat.add_sub_cancel' hlow, Char.ofNat_toNat] at hmem

theorem mem_star_digit : x ∈ digit.star.matches' ↔ ∀ c ∈ x, c.isDigit = true := by
  rw [matches'_star, Language.mem_kstar]
  constructor
  · rintro ⟨words, rfl, hwords⟩ c hc
    obtain ⟨word, hword, hc⟩ := List.mem_flatten.1 hc
    obtain ⟨d, hd, rfl⟩ := mem_digit.1 (hwords word hword)
    exact List.mem_singleton.1 hc ▸ hd
  · intro h
    refine ⟨x.map fun c => [c], ?_, fun word hword => ?_⟩
    · rw [← List.flatMap_def, List.flatMap_singleton']
    obtain ⟨c, hc, rfl⟩ := List.mem_map.1 hword
    exact mem_digit.2 ⟨c, h c hc, rfl⟩

theorem mem_digits : x ∈ digits.matches' ↔ x ≠ [] ∧ ∀ c ∈ x, c.isDigit = true := by
  rw [digits, matches'_mul, Language.mem_mul]
  constructor
  · rintro ⟨_, hfirst, later, hlater, rfl⟩
    obtain ⟨c, hc, rfl⟩ := mem_digit.1 hfirst
    exact ⟨by simp, List.forall_mem_cons.2 ⟨hc, mem_star_digit.1 hlater⟩⟩
  · rintro ⟨hne, hall⟩
    obtain ⟨c, later, rfl⟩ := List.exists_cons_of_ne_nil hne
    obtain ⟨hc, hlater⟩ := List.forall_mem_cons.1 hall
    exact ⟨[c], mem_digit.2 ⟨c, hc, rfl⟩, later, mem_star_digit.2 hlater, rfl⟩

theorem mem_sign : x ∈ sign.matches' ↔ x = [] ∨ x = ['+'] ∨ x = ['-'] := by
  simp [sign, mem_optional, mem_oneOf]

theorem mem_char_mul {c : Char} {P : RegularExpression Char} :
    x ∈ (char c * P).matches' ↔ ∃ y ∈ P.matches', x = c :: y := by
  rw [matches'_mul, Language.mem_mul]
  constructor
  · rintro ⟨_, rfl, y, hy, rfl⟩
    exact ⟨y, hy, rfl⟩
  · rintro ⟨y, hy, rfl⟩
    exact ⟨[c], rfl, y, hy, rfl⟩

theorem mem_mantissa :
    x ∈ mantissa.matches' ↔
      (∃ whole ∈ digits.matches', x = whole ∨ ∃ fraction ∈ digit.star.matches',
        x = whole ++ '.' :: fraction) ∨
      ∃ fraction ∈ digits.matches', x = '.' :: fraction := by
  rw [mantissa, matches'_add, Language.mem_add, mem_char_mul, matches'_mul, Language.mem_mul]
  refine or_congr_left ⟨?_, ?_⟩
  · rintro ⟨whole, hwhole, point, hpoint, rfl⟩
    rcases mem_optional.1 hpoint with rfl | hpoint
    · exact ⟨whole, hwhole, .inl (List.append_nil _)⟩
    · obtain ⟨fraction, hfraction, rfl⟩ := mem_char_mul.1 hpoint
      exact ⟨whole, hwhole, .inr ⟨fraction, hfraction, rfl⟩⟩
  · rintro ⟨whole, hwhole, rfl | ⟨fraction, hfraction, rfl⟩⟩
    · exact ⟨x, hwhole, [], mem_optional.2 (.inl rfl), List.append_nil _⟩
    · exact ⟨whole, hwhole, _, mem_optional.2 (.inr (mem_char_mul.2 ⟨_, hfraction, rfl⟩)), rfl⟩

theorem mem_power :
    x ∈ power.matches' ↔ x = [] ∨ ∃ mark, (mark = 'e' ∨ mark = 'E') ∧
      ∃ y ∈ sign.matches', ∃ run ∈ digits.matches', x = mark :: (y ++ run) := by
  rw [power, mem_optional, matches'_mul, Language.mem_mul]
  refine or_congr_right ⟨?_, ?_⟩
  · rintro ⟨_, hone, _, hrest, rfl⟩
    obtain ⟨mark, hmark, rfl⟩ := mem_oneOf.1 hone
    rw [matches'_mul, Language.mem_mul] at hrest
    obtain ⟨y, hy, run, hrun, rfl⟩ := hrest
    exact ⟨mark, List.mem_pair.1 hmark, y, hy, run, hrun, rfl⟩
  · rintro ⟨mark, hmark, y, hy, run, hrun, rfl⟩
    exact ⟨[mark], mem_oneOf.2 ⟨mark, List.mem_pair.2 hmark, rfl⟩, y ++ run,
      Language.mem_mul.2 ⟨y, hy, run, hrun, rfl⟩, rfl⟩

/-! ### What the parts of a text are split into -/

/-- A mantissa begins with a digit or with a point. -/
def BeginsMantissa (cs : List Char) : Prop :=
  ∀ c ∈ cs.head?, c.isDigit = true ∨ c = '.'

theorem beginsMantissa_of_digits (h : x ∈ digits.matches') (rest : List Char) :
    BeginsMantissa (x ++ rest) := by
  obtain ⟨hne, hall⟩ := mem_digits.1 h
  obtain ⟨c, cs, rfl⟩ := List.exists_cons_of_ne_nil hne
  simp [BeginsMantissa, hall c]

theorem beginsMantissa_of_mantissa (h : x ∈ mantissa.matches') (rest : List Char) :
    BeginsMantissa (x ++ rest) := by
  rcases mem_mantissa.1 h with ⟨whole, hwhole, rfl | ⟨fraction, -, rfl⟩⟩ | ⟨fraction, -, rfl⟩
  · exact beginsMantissa_of_digits hwhole rest
  · rw [List.append_assoc]
    exact beginsMantissa_of_digits hwhole _
  · simp [BeginsMantissa]

theorem splitSign_sound {negative : Bool} (h : splitSign cs = (negative, rest)) :
    ∃ y ∈ sign.matches', cs = y ++ rest := by
  obtain rfl : (splitSign cs).2 = rest := congrArg Prod.snd h
  fun_cases splitSign cs with
  | case1 => exact ⟨['+'], by simp [mem_sign], rfl⟩
  | case2 => exact ⟨['-'], by simp [mem_sign], rfl⟩
  | case3 => exact ⟨[], by simp [mem_sign], rfl⟩

/-- No mantissa begins with a sign, so an absent sign is not mistaken for one. -/
theorem splitSign_complete (h : x ∈ sign.matches') (hrest : BeginsMantissa rest) :
    ∃ negative, splitSign (x ++ rest) = (negative, rest) := by
  rcases mem_sign.1 h with rfl | rfl | rfl
  · refine ⟨false, ?_⟩
    fun_cases splitSign rest with
    | case1 | case2 => simp [BeginsMantissa] at hrest
    | case3 => rfl
  · exact ⟨false, rfl⟩
  · exact ⟨true, rfl⟩

theorem splitDigits_sound {run : List Char} (h : splitDigits cs = (run, rest)) :
    run ∈ digit.star.matches' ∧ cs = run ++ rest := by
  obtain ⟨rfl, rfl⟩ := Prod.mk.inj h
  exact ⟨mem_star_digit.2 (List.all_eq_true.1 List.all_takeWhile),
    List.takeWhile_append_dropWhile.symm⟩

theorem splitDigits_complete (h : x ∈ digit.star.matches') (hrest : Stops Char.isDigit rest) :
    splitDigits (x ++ rest) = (x, rest) :=
  Numeral.splitDigits_append (mem_star_digit.1 h) hrest

theorem mem_digits_of_ne_nil (h : x ∈ digit.star.matches') (hne : x ≠ []) : x ∈ digits.matches' :=
  mem_digits.2 ⟨hne, mem_star_digit.1 h⟩

theorem mem_star_of_digits (h : x ∈ digits.matches') : x ∈ digit.star.matches' :=
  mem_star_digit.2 (mem_digits.1 h).2

theorem splitMantissa_sound {whole fraction : List Char}
    (h : splitMantissa cs = some (whole, fraction, rest)) :
    ∃ y ∈ mantissa.matches', cs = y ++ rest := by
  revert h
  fun_cases splitMantissa cs with
  | case1 | case3 => exact nofun
  | case2 _ hnone run _ hne hsplit =>
    rintro ⟨⟩
    obtain ⟨-, rfl⟩ := splitDigits_sound hnone
    obtain ⟨hrun, rfl⟩ := splitDigits_sound hsplit
    exact ⟨_, mem_mantissa.2 (.inr ⟨_, mem_digits_of_ne_nil hrun hne, rfl⟩), rfl⟩
  | case4 run _ hne hwhole _ _ hsplit =>
    rintro ⟨⟩
    obtain ⟨hrun, rfl⟩ := splitDigits_sound hwhole
    obtain ⟨hfraction, rfl⟩ := splitDigits_sound hsplit
    exact ⟨_, mem_mantissa.2 (.inl ⟨_, mem_digits_of_ne_nil hrun hne, .inr ⟨_, hfraction, rfl⟩⟩),
      by simp⟩
  | case5 _ _ _ hne _ hwhole =>
    rintro ⟨⟩
    obtain ⟨hrun, rfl⟩ := splitDigits_sound hwhole
    exact ⟨_, mem_mantissa.2 (.inl ⟨_, mem_digits_of_ne_nil hrun hne, .inl rfl⟩), rfl⟩

/-- What continues neither digits nor a mantissa without a fraction. -/
def EndsMantissa (cs : List Char) : Prop :=
  ∀ c ∈ cs.head?, c.isDigit = false ∧ c ≠ '.'

theorem endsMantissa_of_power (h : x ∈ power.matches') : EndsMantissa x := by
  rcases mem_power.1 h with rfl | ⟨mark, rfl | rfl, y, -, run, -, rfl⟩
  · simp [EndsMantissa]
  · simp [EndsMantissa]
  · simp [EndsMantissa]

theorem splitMantissa_complete (h : x ∈ mantissa.matches') (hrest : EndsMantissa rest) :
    ∃ whole fraction, splitMantissa (x ++ rest) = some (whole, fraction, rest) := by
  have hstops : Stops Char.isDigit rest := fun c hc => (hrest c hc).1
  have hpoint (cs : List Char) : Stops Char.isDigit ('.' :: cs) := stops_cons.2 (by decide)
  rcases mem_mantissa.1 h with ⟨whole, hwhole, rfl | ⟨fraction, hfraction, rfl⟩⟩ |
    ⟨fraction, hfraction, rfl⟩
  · refine ⟨x, [], ?_⟩
    rw [splitMantissa, splitDigits_complete (mem_star_of_digits hwhole) hstops]
    obtain ⟨c, cs, rfl⟩ := List.exists_cons_of_ne_nil (mem_digits.1 hwhole).1
    cases rest with
    | nil => rfl
    | cons d rest => simp [(hrest d rfl).2]
  · refine ⟨whole, fraction, ?_⟩
    rw [List.append_assoc, List.cons_append, splitMantissa,
      splitDigits_complete (mem_star_of_digits hwhole) (hpoint _)]
    obtain ⟨c, cs, rfl⟩ := List.exists_cons_of_ne_nil (mem_digits.1 hwhole).1
    simp only [splitDigits_complete hfraction hstops]
  · refine ⟨[], fraction, ?_⟩
    have hnone : splitDigits ('.' :: (fraction ++ rest)) = ([], '.' :: (fraction ++ rest)) :=
      splitDigits_complete (mem_star_digit.2 (List.forall_mem_nil _)) (hpoint _)
    simp only [List.cons_append, splitMantissa, hnone,
      splitDigits_complete (mem_star_of_digits hfraction) hstops]
    obtain ⟨c, cs, rfl⟩ := List.exists_cons_of_ne_nil (mem_digits.1 hfraction).1
    rfl

theorem exponent?_isSome_iff : (exponent? cs).isSome ↔ cs ∈ power.matches' := by
  constructor
  · fun_cases exponent? cs with
    | case1 => exact fun _ => mem_power.2 (.inl rfl)
    | case2 | case4 | case5 => exact nofun
    | case3 mark _ hmark _ _ hsign run hne hdigits =>
      intro _
      obtain ⟨y, hy, rfl⟩ := splitSign_sound hsign
      obtain ⟨hrun, rfl⟩ := splitDigits_sound hdigits
      rw [List.append_nil]
      exact mem_power.2 (.inr ⟨mark, hmark, y, hy, run, mem_digits_of_ne_nil hrun hne, rfl⟩)
  · intro h
    rcases mem_power.1 h with rfl | ⟨mark, hmark, y, hy, run, hrun, rfl⟩
    · rfl
    · obtain ⟨negative, hsign⟩ := splitSign_complete hy (beginsMantissa_of_digits hrun [])
      have hdigits := splitDigits_complete (mem_star_of_digits hrun) (stops_nil _)
      obtain ⟨c, cs, rfl⟩ := List.exists_cons_of_ne_nil (mem_digits.1 hrun).1
      rw [List.append_nil] at hsign hdigits
      simp [exponent?, hmark, hsign, hdigits]

/-- A text is split into a decimal exactly if the pattern matches it. -/
theorem decimal?_isSome_iff : (decimal? cs).isSome ↔ cs ∈ pattern.matches' := by
  rw [pattern, matches'_mul, Language.mem_mul]
  constructor
  · intro h
    obtain ⟨d, hd⟩ := Option.isSome_iff_exists.1 h
    rcases hsign : splitSign cs with ⟨negative, rest⟩
    simp only [decimal?, hsign, Option.bind_eq_bind, Option.bind_eq_some_iff] at hd
    obtain ⟨⟨whole, fraction, after⟩, hmantissa, exponent, hexponent, -⟩ := hd
    obtain ⟨y, hy, rfl⟩ := splitSign_sound hsign
    obtain ⟨z, hz, rfl⟩ := splitMantissa_sound hmantissa
    have hafter := exponent?_isSome_iff.1 (Option.isSome_iff_exists.2 ⟨exponent, hexponent⟩)
    exact ⟨y, hy, z ++ after, Language.mem_mul.2 ⟨z, hz, after, hafter, rfl⟩, rfl⟩
  · rintro ⟨y, hy, _, hrest, rfl⟩
    obtain ⟨z, hz, after, hafter, rfl⟩ := Language.mem_mul.1 hrest
    obtain ⟨negative, hsign⟩ := splitSign_complete hy (beginsMantissa_of_mantissa hz after)
    obtain ⟨whole, fraction, hmantissa⟩ := splitMantissa_complete hz (endsMantissa_of_power hafter)
    obtain ⟨exponent, hexponent⟩ := Option.isSome_iff_exists.1 (exponent?_isSome_iff.2 hafter)
    simp [decimal?, hsign, hmantissa, hexponent]

end Literal

/-- An atom is a number exactly if its text is a decimal literal; every other atom is the symbol with
that text. -/
theorem Value.ofAtom_classified (text : String) :
    ((∃ x, ofAtom text = .number x) ↔ text.toList ∈ Literal.pattern.matches') ∧
      (ofAtom text = .symbol text ↔ text.toList ∉ Literal.pattern.matches') := by
  rw [← Literal.decimal?_isSome_iff, ofAtom]
  cases Literal.decimal? text.toList <;> simp

example : "+.5e-2".toList ∈ Literal.pattern.matches' ∧ "1e".toList ∉ Literal.pattern.matches' := by
  decide +kernel

end ScopedLisp
