import ScopedLisp.Number.Literal
import ScopedLisp.Token
import ScopedLisp.Value.Basic

/-! # Reading values

An expression is an atom or a parenthesised sequence of expressions. Reading takes one expression
off the front of a sequence of tokens and says what is left, also when it fails, so reading can go
on after an error. -/

namespace ScopedLisp

/-- Why a text is not an expression. -/
inductive ReadError where
  | unexpectedEnd
  | unexpectedClosing
  | trailing (text : String)
deriving DecidableEq, Repr

/-- The wording of a reading error. -/
def ReadError.message : ReadError → String
  | unexpectedEnd => "unexpected end of input"
  | unexpectedClosing => "unexpected `)`"
  | trailing text => "unexpected input after expression: `" ++ text ++ "`"

/-- What became of reading one expression, and the tokens left. -/
structure Reading where
  outcome : Except ReadError Value
  rest : List Token

namespace Value

/-- The value of an atom: a number if its text is a decimal literal, else a symbol. -/
def ofAtom (text : String) : Value :=
  match Literal.decimal? text.toList with
  | some decimal => .number decimal.toFloat
  | none => .symbol text

/-- Reads on inside an open list. The items of the list so far, and those of the lists around it,
innermost first, are kept in reverse. -/
def readInside (items : List Value) (around : List (List Value)) : List Token → Reading
  | [] => ⟨.error .unexpectedEnd, []⟩
  | .atom text :: rest => readInside (ofAtom text :: items) around rest
  | .opening :: rest => readInside [] (items :: around) rest
  | .closing :: rest =>
    match around with
    | [] => ⟨.ok (.list items.reverse), rest⟩
    | outer :: around => readInside (.list items.reverse :: outer) around rest

/-- Reads one expression. -/
def read : List Token → Reading
  | [] => ⟨.error .unexpectedEnd, []⟩
  | .closing :: rest => ⟨.error .unexpectedClosing, rest⟩
  | .atom text :: rest => ⟨.ok (ofAtom text), rest⟩
  | .opening :: rest => readInside [] [] rest

/-- Checks that nothing is left after an expression. A closing parenthesis anywhere in the rest is
the error that counts. -/
def finish : List Token → Except ReadError Unit
  | [] => .ok ()
  | token :: rest =>
    if .closing ∈ token :: rest then .error .unexpectedClosing else .error (.trailing token.text)

/-- The one expression that a text holds. -/
def ofText (s : String) : Except ReadError Value := do
  let ⟨outcome, rest⟩ := read (Token.ofText s)
  let value ← outcome
  finish rest
  return value

end Value
end ScopedLisp
