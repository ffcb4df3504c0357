import ScopedLisp.Eval.Evaluator

/-! # Rules of evaluation

The big-step relation of the language: which results, and which stores, an expression can end with.
Five judgements hold by mutual induction: on expressions, on sequences of expressions, on the
bindings of a `let`, on the operands of a special form and on applications. Each error has its own
rule, and the store in its conclusion is the one that the failure leaves. A rule has no premise for
an evaluation that does not take place, and nothing is derivable for one that does not end. -/

namespace ScopedLisp

/-- An outcome that is a result or an error. -/
def Outcome.ended {α : Type} : Except EvalError α → Store → Outcome α
  | .ok value, s => .ok value s
  | .error cause, s => .error cause s

@[simp] theorem Outcome.ended_ok {α : Type} (value : α) (s : Store) :
    ended (.ok value) s = .ok value s := rfl

@[simp] theorem Outcome.ended_error {α : Type} (cause : EvalError) (s : Store) :
    (ended (.error cause) s : Outcome α) = .error cause s := rfl

/-- Whether a store knows how to apply a value. -/
def Store.IsCallable (s : Store) : Value → Prop
  | .procedure (.builtin _ _) => True
  | .procedure (.closure id) => (s.closure? id).isSome
  | _ => False

mutual

/-- `Evaluates e scope s r t`: evaluating `e` in a scope of the store `s` gives `r` and leaves the
store `t`. -/
inductive Evaluates : Value → ScopeId → Store → Except EvalError Value → Store → Prop where
  | number {x scope s} : Evaluates (.number x) scope s (.ok (.number x)) s
  | boolean {b scope s} : Evaluates (.boolean b) scope s (.ok (.boolean b)) s
  | procedure {p scope s} : Evaluates (.procedure p) scope s (.ok (.procedure p)) s
  | emptyList {scope s} : Evaluates (.list []) scope s (.ok (.list [])) s
  | literal {name scope s} (literal : (Value.symbol name).isStringLiteral = true) :
      Evaluates (.symbol name) scope s (.ok (.symbol name)) s
  | bound {name scope s value} (plain : (Value.symbol name).isStringLiteral = false)
      (bound : s.get? scope name = some value) :
      Evaluates (.symbol name) scope s (.ok value) s
  | unbound {name scope s} (plain : (Value.symbol name).isStringLiteral = false)
      (unbound : s.get? scope name = none) :
      Evaluates (.symbol name) scope s (.error (.unbound name)) s
  | special {form operands scope s r t} (special : EvaluatesForm form operands scope s r t) :
      Evaluates (.list (.symbol (Form.keyword form) :: operands)) scope s r t
  | elementFails {head operands scope s cause t}
      (ordinary : ∀ form : Form, head ≠ .symbol form.keyword)
      (elements : EvaluatesAll (head :: operands) scope s (.error cause) t) :
      Evaluates (.list (head :: operands)) scope s (.error cause) t
  | call {head operands scope s operator args t r u}
      (ordinary : ∀ form : Form, head ≠ .symbol form.keyword)
      (elements : EvaluatesAll (head :: operands) scope s (.ok (operator :: args)) t)
      (application : Applies operator args t r u) :
      Evaluates (.list (head :: operands)) scope s r u

/-- `EvaluatesAll es scope s r t`: the expressions are evaluated from left to right up to the first
that fails. -/
inductive EvaluatesAll :
    List Value → ScopeId → Store → Except EvalError (List Value) → Store → Prop where
  | nil {scope s} : EvaluatesAll [] scope s (.ok []) s
  | cons {e es scope s value t values u} (first : Evaluates e scope s (.ok value) t)
      (later : EvaluatesAll es scope t (.ok values) u) :
      EvaluatesAll (e :: es) scope s (.ok (value :: values)) u
  | firstFails {e es scope s cause t} (first : Evaluates e scope s (.error cause) t) :
      EvaluatesAll (e :: es) scope s (.error cause) t
  | laterFails {e es scope s value t cause u} (first : Evaluates e scope s (.ok value) t)
      (later : EvaluatesAll es scope t (.error cause) u) :
      EvaluatesAll (e :: es) scope s (.error cause) u

/-- `BindsAll bindings own scope s r t`: the bindings of a `let` are taken in turn, each one checked
and then its initializer evaluated in the outer scope; `own` holds what the earlier ones bind. -/
inductive BindsAll : List Value → Bindings Value → ScopeId → Store →
    Except EvalError (Bindings Value) → Store → Prop where
  | nil {own scope s} : BindsAll [] own scope s (.ok own) s
  | cons {target initializer rest own scope s name value t r u}
      (named : target.bindableName? = some name) (fresh : own.contains name = false)
      (first : Evaluates initializer scope s (.ok value) t)
      (later : BindsAll rest (own.insert name value) scope t r u) :
      BindsAll (.list [target, initializer] :: rest) own scope s r u
  | initializerFails {target initializer rest own scope s name cause t}
      (named : target.bindableName? = some name) (fresh : own.contains name = false)
      (first : Evaluates initializer scope s (.error cause) t) :
      BindsAll (.list [target, initializer] :: rest) own scope s (.error cause) t
  | twice {target initializer rest own scope s name}
      (named : target.bindableName? = some name) (seen : own.contains name = true) :
      BindsAll (.list [target, initializer] :: rest) own scope s
        (.error (.malformed .bind (.boundTwice name))) s
  | unbindable {target initializer rest own scope s} (unnamed : target.bindableName? = none) :
      BindsAll (.list [target, initializer] :: rest) own scope s
        (.error (.malformed .bind (.unbindable (s.text target)))) s
  | notPair {binding rest own scope s}
      (shape : ∀ target initializer, binding ≠ .list [target, initializer]) :
      BindsAll (binding :: rest) own scope s
        (.error (.malformed .bind (.notPair (s.text binding)))) s

/-- `EvaluatesForm form operands scope s r t`: what a special form makes of its operands. -/
inductive EvaluatesForm :
    Form → List Value → ScopeId → Store → Except EvalError Value → Store → Prop where
  | operandCount {form operands scope s} (count : operands.length ≠ Form.operandCount form) :
      EvaluatesForm form operands scope s
        (.error (.malformed form (.operandCount form.operandCount operands.length))) s
  | quote {datum scope s} : EvaluatesForm .quote [datum] scope s (.ok datum) s
  | testFails {test yes no scope s cause t} (tested : Evaluates test scope s (.error cause) t) :
      EvaluatesForm .choose [test, yes, no] scope s (.error cause) t
  | chooseYes {test yes no scope s value t r u} (tested : Evaluates test scope s (.ok value) t)
      (truthy : value.truthy = true) (chosen : Evaluates yes scope t r u) :
      EvaluatesForm .choose [test, yes, no] scope s r u
  | chooseNo {test yes no scope s value t r u} (tested : Evaluates test scope s (.ok value) t)
      (falsy : value.truthy = false) (chosen : Evaluates no scope t r u) :
      EvaluatesForm .choose [test, yes, no] scope s r u
  | unbindable {form target expr scope s} (writes : form = .define ∨ form = .assign)
      (unnamed : target.bindableName? = none) :
      EvaluatesForm form [target, expr] scope s
        (.error (.malformed form (.unbindable (s.text target)))) s
  | rightSideFails {form target expr scope s name cause t}
      (writes : form = .define ∨ form = .assign) (named : target.bindableName? = some name)
      (rightSide : Evaluates expr scope s (.error cause) t) :
      EvaluatesForm form [target, expr] scope s (.error cause) t
  | define {target expr scope s name value t} (named : target.bindableName? = some name)
      (rightSide : Evaluates expr scope s (.ok value) t) :
      EvaluatesForm .define [target, expr] scope s (.ok value) (t.define scope name value)
  | assign {target expr scope s name value t u} (named : target.bindableName? = some name)
      (rightSide : Evaluates expr scope s (.ok value) t)
      (written : t.set? scope name value = some u) :
      EvaluatesForm .assign [target, expr] scope s (.ok value) u
  | assignUnbound {target expr scope s name value t} (named : target.bindableName? = some name)
      (rightSide : Evaluates expr scope s (.ok value) t)
      (unbound : t.set? scope name value = none) :
      EvaluatesForm .assign [target, expr] scope s (.error (.unbound name)) t
  | bindingsNotList {bindings body scope s} (shape : ∀ items, bindings ≠ .list items) :
      EvaluatesForm .bind [bindings, body] scope s
        (.error (.malformed .bind .bindingsNotList)) s
  | bindingFails {bindings body scope s cause t}
      (bound : BindsAll bindings .empty scope s (.error cause) t) :
      EvaluatesForm .bind [.list bindings, body] scope s (.error cause) t
  | bind {bindings body scope s own t r u} (bound : BindsAll bindings .empty scope s (.ok own) t)
      (inside : Evaluates body (t.addScope scope own).1 (t.addScope scope own).2 r u) :
      EvaluatesForm .bind [.list bindings, body] scope s r u
  | parametersNotList {targets body scope s} (shape : ∀ items, targets ≠ .list items) :
      EvaluatesForm .lambda [targets, body] scope s
        (.error (.malformed .lambda .parametersNotList)) s
  | unbindableParameter {before target after body scope s} {params : List String}
      (named : before.map Value.bindableName? = params.map some) (distinct : params.Nodup)
      (unnamed : target.bindableName? = none) :
      EvaluatesForm .lambda [.list (before ++ target :: after), body] scope s
        (.error (.malformed .lambda (.unbindable (s.text target)))) s
  | parameterTwice {before target after name body scope s} {params : List String}
      (named : before.map Value.bindableName? = params.map some) (distinct : params.Nodup)
      (again : target.bindableName? = some name) (seen : name ∈ params) :
      EvaluatesForm .lambda [.list (before ++ target :: after), body] scope s
        (.error (.malformed .lambda (.parameterTwice name))) s
  | lambda {targets body scope s} {params : List String}
      (named : targets.map Value.bindableName? = params.map some) (distinct : params.Nodup) :
      EvaluatesForm .lambda [.list targets, body] scope s
        (.ok (.procedure (.closure (s.addClosure { params, body, scope }).1)))
        (s.addClosure { params, body, scope }).2

/-- `Applies operator args s r t`: applying a value to arguments. -/
inductive Applies : Value → List Value → Store → Except EvalError Value → Store → Prop where
  | notCallable {operator args s} (shape : ¬ s.IsCallable operator) :
      Applies operator args s (.error (.notCallable (s.text operator))) s
  | builtin {name operation args s r t}
      (computed : Operation.apply name operation args s = .ended r t) :
      Applies (.procedure (.builtin name operation)) args s r t
  | argumentCount {id args s closure} (known : s.closure? id = some closure)
      (count : args.length ≠ closure.params.length) :
      Applies (.procedure (.closure id)) args s
        (.error (.arity (s.procedureText (.closure id)) (.exactly closure.params.length)
          args.length)) s
  | closure {id args s closure r t} (known : s.closure? id = some closure)
      (count : args.length = closure.params.length)
      (inside : Evaluates closure.body
        (s.addScope closure.scope (.ofList (closure.params.zip args))).1
        (s.addScope closure.scope (.ofList (closure.params.zip args))).2 r t) :
      Applies (.procedure (.closure id)) args s r t

end

end ScopedLisp
