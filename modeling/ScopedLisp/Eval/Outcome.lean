import ScopedLisp.Eval.Error
import ScopedLisp.Store.Chain
import ScopedLisp.Store.Text

/-! # Evaluations

An evaluation starts from a store and ends with a result or an error, in each case with the store
it leaves, or is given up because it is nested too deeply. An error does not undo what was stored
before it. -/

namespace ScopedLisp

/-- How an evaluation ends. -/
inductive Outcome (α : Type) where
  | ok (result : α) (store : Store)
  | error (cause : EvalError) (store : Store)
  /-- Given up: the evaluation is nested more deeply than allowed. -/
  | tooDeep

/-- A computation that reads and writes a store. -/
def Eval (α : Type) : Type := Store → Outcome α

namespace Eval
variable {α β : Type}

/-- Ends with a result. -/
protected def pure (result : α) : Eval α := fun s => .ok result s

/-- Goes on with the result, if there is one. -/
protected def bind (x : Eval α) (next : α → Eval β) : Eval β := fun s =>
  match x s with
  | .ok result s => next result s
  | .error cause s => .error cause s
  | .tooDeep => .tooDeep

instance : Monad Eval where
  pure := Eval.pure
  bind := Eval.bind

@[simp] theorem pure_apply (result : α) (s : Store) : (pure result : Eval α) s = .ok result s := rfl

@[simp] theorem bind_apply (x : Eval α) (next : α → Eval β) (s : Store) :
    (x >>= next) s =
      match x s with
      | .ok result s => next result s
      | .error cause s => .error cause s
      | .tooDeep => .tooDeep := rfl

@[simp] theorem map_apply (f : α → β) (x : Eval α) (s : Store) :
    (f <$> x) s =
      match x s with
      | .ok result s => .ok (f result) s
      | .error cause s => .error cause s
      | .tooDeep => .tooDeep := rfl

instance : LawfulMonad Eval := LawfulMonad.mk' Eval
  (fun x => by
    funext s
    change Eval.bind x _ s = x s
    simp only [Eval.bind]
    cases x s <;> rfl)
  (fun _ _ => rfl)
  (fun x _ _ => by
    funext s
    simp only [bind_apply]
    cases x s <;> rfl)

/-- Ends with an error. -/
def fail (cause : EvalError) : Eval α := fun s => .error cause s

@[simp] theorem fail_apply (cause : EvalError) (s : Store) :
    (fail cause : Eval α) s = .error cause s := rfl

/-- Gives up. -/
def tooDeep : Eval α := fun _ => .tooDeep

/-- The printed text of a value. -/
def textOf (value : Value) : Eval String := fun s => .ok (s.text value) s

@[simp] theorem textOf_apply (value : Value) (s : Store) :
    textOf value s = .ok (s.text value) s := rfl

/-- The meaning of a name in a scope. -/
def lookup (scope : ScopeId) (name : String) : Eval Value := fun s =>
  match s.get? scope name with
  | some value => .ok value s
  | none => .error (.unbound name) s

/-- Binds a name in a scope itself. -/
def define (scope : ScopeId) (name : String) (value : Value) : Eval Unit := fun s =>
  .ok () (s.define scope name value)

@[simp] theorem define_apply (scope : ScopeId) (name : String) (value : Value) (s : Store) :
    define scope name value s = .ok () (s.define scope name value) := rfl

/-- Writes to the nearest binding of a name. -/
def assign (scope : ScopeId) (name : String) (value : Value) : Eval Unit := fun s =>
  match s.set? scope name value with
  | some s => .ok () s
  | none => .error (.unbound name) s

/-- Makes a scope. -/
def newScope (parent : Option ScopeId) (own : Bindings Value) : Eval ScopeId := fun s =>
  let (id, s) := s.addScope parent own
  .ok id s

@[simp] theorem newScope_apply (parent : Option ScopeId) (own : Bindings Value) (s : Store) :
    newScope parent own s = .ok (s.addScope parent own).1 (s.addScope parent own).2 := rfl

/-- Makes a closure. -/
def newClosure (closure : Closure) : Eval ClosureId := fun s =>
  let (id, s) := s.addClosure closure
  .ok id s

@[simp] theorem newClosure_apply (closure : Closure) (s : Store) :
    newClosure closure s = .ok (s.addClosure closure).1 (s.addClosure closure).2 := rfl

/-- The parts of a closure. -/
def closure? (id : ClosureId) : Eval (Option Closure) := fun s => .ok (s.closure? id) s

@[simp] theorem closure?_apply (id : ClosureId) (s : Store) :
    closure? id s = .ok (s.closure? id) s := rfl

end Eval
end ScopedLisp
