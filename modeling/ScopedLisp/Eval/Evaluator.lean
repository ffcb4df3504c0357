import ScopedLisp.Eval.Builtin
import ScopedLisp.Eval.Form

/-! # The evaluator

A symbol stands for what it is bound to, a string literal and everything that is no list for itself,
and so does the empty list. A list headed by a keyword is a special form. Any other list is an
application: its elements are evaluated from left to right, the operator first, and the operator is
applied to the rest.

One step of evaluation takes the evaluator of the parts as a parameter. Evaluation within a depth
ties the knot that many times, so the depth bounds how many evaluations are open at once. -/

namespace ScopedLisp

/-- Evaluates expressions from left to right. -/
def Evaluator.all (ev : Evaluator) (scope : ScopeId) : List Value → Eval (List Value)
  | [] => pure []
  | expr :: rest => do
    let value ← ev expr scope
    let values ← all ev scope rest
    return value :: values

/-- Applies a procedure. A closure evaluates its body in a new scope inside the one it was made in,
with its parameters bound to the arguments. -/
def Procedure.apply (ev : Evaluator) (p : Procedure) (args : List Value) : Eval Value :=
  match p with
  | .builtin name operation => operation.apply name args
  | .closure id => do
    match ← Eval.closure? id with
    | some parts =>
      if args.length = parts.params.length then
        let inner ← Eval.newScope parts.scope (.ofList (parts.params.zip args))
        ev parts.body inner
      else
        let text ← Eval.textOf (.procedure p)
        Eval.fail (.arity text (.exactly parts.params.length) args.length)
    | none =>
      let text ← Eval.textOf (.procedure p)
      Eval.fail (.notCallable text)

/-- The form that a value heads, if it is a keyword symbol. -/
def Value.form? : Value → Option Form
  | .symbol name => Form.ofKeyword? name
  | _ => none

namespace Evaluator

/-- One step of evaluation. -/
def step (ev : Evaluator) : Evaluator := fun expr scope =>
  match expr with
  | .symbol name => if Value.isQuotedName name then pure expr else Eval.lookup scope name
  | .list (head :: operands) =>
    match head.form? with
    | some form => form.apply ev operands scope
    | none => do
      let operator ← ev head scope
      let args ← ev.all scope operands
      match operator with
      | .procedure p => p.apply ev args
      | _ =>
        let text ← Eval.textOf operator
        Eval.fail (.notCallable text)
  | _ => pure expr

/-- Evaluation with at most so many evaluations open at once. -/
def within : Nat → Evaluator
  | 0 => fun _ _ => Eval.tooDeep
  | depth + 1 => step (within depth)

end Evaluator

/-- Reads and evaluates the one expression of a text. -/
def Eval.run (depth : Nat) (scope : ScopeId) (text : String) : Eval Value :=
  match Value.ofText text with
  | .ok expr => Evaluator.within depth expr scope
  | .error cause => Eval.fail (.unreadable cause)

end ScopedLisp
