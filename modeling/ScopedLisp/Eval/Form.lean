import ScopedLisp.Eval.Outcome

/-! # Evaluating special forms

What the six forms do with their operands. The evaluator of their parts is a parameter. A form first
counts its operands; names are checked before anything is evaluated, except that the bindings of one
`let` are checked and evaluated in turn. -/

namespace ScopedLisp

/-- Evaluates an expression in a scope. -/
abbrev Evaluator := Value → ScopeId → Eval Value

/-- The name that a value can stand for in a binding: that of a symbol which is neither a string
literal nor a keyword. -/
def Value.bindableName? : Value → Option String
  | .symbol name => if isQuotedName name || Form.isKeyword name then none else some name
  | _ => none

namespace Form

/-- The name to bind, as an operand of a form. -/
def nameOf (form : Form) (target : Value) : Eval String :=
  match target.bindableName? with
  | some name => pure name
  | none => do
    let text ← Eval.textOf target
    Eval.fail (.malformed form (.unbindable text))

/-- Evaluates the initializers of `(name initializer)` pairs in a scope, and collects what the names
are to be bound to. -/
def bindAll (ev : Evaluator) (scope : ScopeId) (own : Bindings Value) :
    List Value → Eval (Bindings Value)
  | [] => pure own
  | .list [target, initializer] :: rest => do
    let name ← nameOf .bind target
    if own.contains name then Eval.fail (.malformed .bind (.boundTwice name))
    else
      let value ← ev initializer scope
      bindAll ev scope (own.insert name value) rest
  | binding :: _ => do
    let text ← Eval.textOf binding
    Eval.fail (.malformed .bind (.notPair text))

/-- The names of parameters, after those already seen. -/
def parameters (seen : List String) : List Value → Eval (List String)
  | [] => pure seen
  | target :: rest => do
    let name ← nameOf .lambda target
    if name ∈ seen then Eval.fail (.malformed .lambda (.parameterTwice name))
    else parameters (seen ++ [name]) rest

/-- Evaluates a form on its operands. -/
def apply (ev : Evaluator) : Form → List Value → ScopeId → Eval Value
  | .quote, [datum], _ => pure datum
  | .choose, [test, yes, no], scope => do
    let value ← ev test scope
    if value.truthy then ev yes scope else ev no scope
  | .define, [target, expr], scope => do
    let name ← nameOf .define target
    let value ← ev expr scope
    Eval.define scope name value
    return value
  | .assign, [target, expr], scope => do
    let name ← nameOf .assign target
    let value ← ev expr scope
    Eval.assign scope name value
    return value
  | .bind, [.list bindings, body], scope => do
    let own ← bindAll ev scope .empty bindings
    let inner ← Eval.newScope scope own
    ev body inner
  | .bind, [_, _], _ => Eval.fail (.malformed .bind .bindingsNotList)
  | .lambda, [.list targets, body], scope => do
    let params ← parameters [] targets
    let id ← Eval.newClosure { params, body, scope }
    return .procedure (.closure id)
  | .lambda, [_, _], _ => Eval.fail (.malformed .lambda .parametersNotList)
  | form, operands, _ =>
    Eval.fail (.malformed form (.operandCount form.operandCount operands.length))

end Form
end ScopedLisp
