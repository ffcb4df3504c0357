import ScopedLisp.Form
import ScopedLisp.Value.Reading

/-! # Evaluation errors

Why an evaluation fails, as causes, and the wording of each cause. A value that is part of a cause
is kept as its printed text. -/

namespace ScopedLisp

/-- How many arguments a procedure accepts. -/
inductive Arity where
  | exactly (n : Nat)
  | atLeast (n : Nat)
deriving DecidableEq, Repr

/-- A count of arguments with its noun. -/
def Arity.countText (n : Nat) : String :=
  if n = 1 then "1 argument" else toString n ++ " arguments"

/-- The wording of an arity. -/
def Arity.message : Arity → String
  | exactly n => "exactly " ++ countText n
  | atLeast n => "at least " ++ countText n

/-- What is wrong with the shape of a special form. -/
inductive Malformation where
  | operandCount (expected got : Nat)
  | unbindable (text : String)
  | bindingsNotList
  | notPair (text : String)
  | boundTwice (name : String)
  | parametersNotList
  | parameterTwice (name : String)
deriving DecidableEq, Repr

/-- The wording of a wrong shape. -/
def Malformation.message : Malformation → String
  | operandCount expected got =>
    "expected " ++ toString expected ++ " operand(s), got " ++ toString got
  | unbindable text => "cannot bind `" ++ text ++ "`"
  | bindingsNotList => "bindings must be a list"
  | notPair text => "binding `" ++ text ++ "` is not a (name value) pair"
  | boundTwice name => "`" ++ name ++ "` is bound twice"
  | parametersNotList => "parameters must be a list"
  | parameterTwice name => "`" ++ name ++ "` is a parameter twice"

/-- Why an evaluation fails. -/
inductive EvalError where
  /-- The text to evaluate is not an expression. -/
  | unreadable (cause : ReadError)
  | unbound (name : String)
  | notCallable (text : String)
  | arity (procedure : String) (expected : Arity) (got : Nat)
  /-- A procedure on numbers was given something else. -/
  | notNumber (procedure text : String)
  | malformed (form : Form) (fault : Malformation)
deriving DecidableEq, Repr

/-- The wording of an evaluation error. -/
def EvalError.message : EvalError → String
  | unreadable cause => "syntax error: " ++ cause.message
  | unbound name => "unbound variable: " ++ name
  | notCallable text => "not a procedure: " ++ text
  | arity procedure expected got =>
    procedure ++ " expects " ++ expected.message ++ ", got " ++ toString got
  | notNumber procedure text => procedure ++ " expects numbers, got " ++ text
  | malformed form fault => "malformed " ++ form.keyword ++ ": " ++ fault.message

example : (EvalError.arity "<" (.exactly 2) 3).message = "< expects exactly 2 arguments, got 3" := by
  decide +kernel

end ScopedLisp
