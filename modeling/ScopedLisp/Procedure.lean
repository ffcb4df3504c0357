/-! # Procedures

What can be applied to arguments. A builtin is a name and one of a fixed set of operations; a closure
is known by its place in a store, where its parts are kept. -/

namespace ScopedLisp

/-- The place of a scope in a store. -/
structure ScopeId where
  index : Nat
deriving DecidableEq, Repr

/-- The place of a closure in a store. -/
structure ClosureId where
  index : Nat
deriving DecidableEq, Repr

/-- An operation that folds numbers from the left. -/
inductive Arithmetic where
  | add
  | subtract
  | multiply
  | divide
deriving DecidableEq, Repr

/-- A comparison of two numbers. -/
inductive Comparison where
  | greater
  | less
  | equal
  | atMost
  | atLeast
deriving DecidableEq, Repr

/-- What a builtin does with its arguments. -/
inductive Operation where
  | fold (operator : Arithmetic)
  | compare (relation : Comparison)
  /-- Answers the list of its arguments. -/
  | gather
deriving DecidableEq, Repr

/-- Something that can be applied to arguments. -/
inductive Procedure where
  | builtin (name : String) (operation : Operation)
  | closure (id : ClosureId)
deriving DecidableEq, Repr

/-- Whether two procedures are the same one: builtins by name, closures by place. -/
def Procedure.isSame : Procedure → Procedure → Bool
  | .builtin a _, .builtin b _ => a == b
  | .closure a, .closure b => a == b
  | _, _ => false

end ScopedLisp
