import ScopedLisp.Eval.Evaluator

/-! # Sessions

A session is a root scope with the builtins and the store it lives in. What one text defines, the
next one sees. -/

namespace ScopedLisp

/-- Makes a root scope with the builtins. -/
def Store.addRoot (s : Store) : ScopeId × Store :=
  s.addScope none Operation.rootBindings

/-- What is shown of an outcome, and the store it leaves, if evaluation was not given up. -/
def Outcome.answer? : Outcome Value → Option (Except EvalError String × Store)
  | .ok value s => some (.ok (s.text value), s)
  | .error cause s => some (.error cause, s)
  | .tooDeep => none

/-- A root scope and its store. -/
structure Session where
  store : Store
  root : ScopeId

namespace Session

/-- A new session. -/
def start : Session :=
  let (root, store) := Store.empty.addRoot
  { store, root }

/-- The session that an outcome leaves; what was given up leaves the old one. -/
def after (session : Session) : Outcome Value → Session
  | .ok _ store => { session with store }
  | .error _ store => { session with store }
  | .tooDeep => session

/-- Reads and evaluates a text. -/
def run (session : Session) (depth : Nat) (text : String) : Outcome Value :=
  Eval.run depth session.root text session.store

/-- The description of a session. -/
def describe (session : Session) : String :=
  "Interpreter \x7b environment: " ++ session.store.describeScope session.root ++ " \x7d"

end Session

/-- Reads and evaluates a text in a new session. -/
def run (depth : Nat) (text : String) : Outcome Value :=
  Session.start.run depth text

end ScopedLisp
