import ScopedLisp.Procedure

/-! # Values

A value is a number, a boolean, a symbol, a list of values or a procedure. Code and data are the
same type: an expression is a value. -/

namespace ScopedLisp

/-- A piece of data or code. -/
inductive Value where
  | number (x : Float)
  | boolean (b : Bool)
  | symbol (name : String)
  | list (items : List Value)
  | procedure (p : Procedure)
deriving Inhabited

namespace Value

mutual

/-- Decides whether two values are the same, numbers by their bits. -/
protected def decEq : (a b : Value) → Decidable (a = b)
  | .number x, .number y =>
    if h : x = y then isTrue (congrArg _ h) else isFalse fun he => h (Value.number.inj he)
  | .boolean x, .boolean y =>
    if h : x = y then isTrue (congrArg _ h) else isFalse fun he => h (Value.boolean.inj he)
  | .symbol x, .symbol y =>
    if h : x = y then isTrue (congrArg _ h) else isFalse fun he => h (Value.symbol.inj he)
  | .procedure x, .procedure y =>
    if h : x = y then isTrue (congrArg _ h) else isFalse fun he => h (Value.procedure.inj he)
  | .list xs, .list ys =>
    match decEqItems xs ys with
    | isTrue h => isTrue (congrArg _ h)
    | isFalse h => isFalse fun he => h (Value.list.inj he)
  | .number _, .boolean _ | .number _, .symbol _ | .number _, .list _ | .number _, .procedure _
  | .boolean _, .number _ | .boolean _, .symbol _ | .boolean _, .list _ | .boolean _, .procedure _
  | .symbol _, .number _ | .symbol _, .boolean _ | .symbol _, .list _ | .symbol _, .procedure _
  | .list _, .number _ | .list _, .boolean _ | .list _, .symbol _ | .list _, .procedure _
  | .procedure _, .number _ | .procedure _, .boolean _ | .procedure _, .symbol _
  | .procedure _, .list _ => isFalse nofun

/-- Decides whether two sequences of values are the same. -/
def decEqItems : (xs ys : List Value) → Decidable (xs = ys)
  | [], [] => isTrue rfl
  | [], _ :: _ | _ :: _, [] => isFalse nofun
  | x :: xs, y :: ys =>
    match Value.decEq x y, decEqItems xs ys with
    | isTrue h, isTrue hs => isTrue (by rw [h, hs])
    | isFalse h, _ => isFalse fun he => h (List.cons.inj he).1
    | _, isFalse hs => isFalse fun he => hs (List.cons.inj he).2

end

instance : DecidableEq Value := Value.decEq

/-- A symbol that starts and ends with a double quote, by two different characters, stands for
itself. -/
def isQuotedName (name : String) : Bool :=
  match name.toList with
  | '"' :: rest => rest.getLast? == some '"'
  | _ => false

/-- Whether a value is a string literal: a symbol between double quotes. -/
def isStringLiteral : Value → Bool
  | .symbol name => isQuotedName name
  | _ => false

/-- Whether a value counts as true: all but `false`, the two zeros and numbers that are not numbers
do. -/
def truthy : Value → Bool
  | .boolean b => b
  | .number x => !(x == 0 || x.isNaN)
  | _ => true

end Value
end ScopedLisp
