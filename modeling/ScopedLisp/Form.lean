/-! # Special forms

A list headed by one of six keywords is a special form: its operands are not evaluated first. -/

namespace ScopedLisp

/-- A special form. -/
inductive Form where
  | quote
  | choose
  | define
  | assign
  | bind
  | lambda
deriving DecidableEq, Repr

namespace Form

/-- All special forms. -/
def all : List Form := [quote, choose, define, assign, bind, lambda]

/-- The symbol that heads a form. -/
def keyword : Form → String
  | quote => "quote"
  | choose => "if"
  | define => "define"
  | assign => "set!"
  | bind => "let"
  | lambda => "lambda"

/-- The number of operands that a form takes. -/
def operandCount : Form → Nat
  | quote => 1
  | choose => 3
  | define => 2
  | assign => 2
  | bind => 2
  | lambda => 2

/-- The form that a symbol heads, if it is a keyword. -/
def ofKeyword? (name : String) : Option Form :=
  all.find? fun form => form.keyword == name

/-- Whether a name is a keyword. -/
def isKeyword (name : String) : Bool :=
  (ofKeyword? name).isSome

theorem ofKeyword?_keyword (form : Form) : ofKeyword? form.keyword = some form := by
  cases form <;> decide

theorem keyword_of_ofKeyword? {name : String} {form : Form} (h : ofKeyword? name = some form) :
    form.keyword = name := by
  simpa using List.find?_some h

end Form
end ScopedLisp
