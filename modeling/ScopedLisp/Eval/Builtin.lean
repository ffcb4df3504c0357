import ScopedLisp.Eval.Outcome

/-! # Builtins

Nine procedures on numbers. The arithmetic ones fold their arguments from the left and need at least
one; the comparisons take two. A builtin is known by one name: it is bound under it, printed with it
and named by it in errors. -/

namespace ScopedLisp

/-- One step of a fold. -/
def Arithmetic.apply : Arithmetic → Float → Float → Float
  | add, x, y => x + y
  | subtract, x, y => x - y
  | multiply, x, y => x * y
  | divide, x, y => x / y

/-- Whether a comparison holds between two numbers. -/
def Comparison.holds : Comparison → Float → Float → Bool
  | greater, x, y => y < x
  | less, x, y => x < y
  | equal, x, y => x == y
  | atMost, x, y => x ≤ y
  | atLeast, x, y => y ≤ x

namespace Operation

/-- The numbers that a sequence of arguments consists of; the first other argument is an error. -/
def numbers (name : String) : List Value → Eval (List Float)
  | [] => pure []
  | .number x :: rest => do
    let xs ← numbers name rest
    return x :: xs
  | value :: _ => do
    let text ← Eval.textOf value
    Eval.fail (.notNumber name text)

/-- Applies an operation under the name of its builtin. -/
def apply (name : String) : Operation → List Value → Eval Value
  | .fold operator, args => do
    match ← numbers name args with
    | [] => Eval.fail (.arity name (.atLeast 1) 0)
    | x :: xs => return .number (xs.foldl operator.apply x)
  | .compare relation, args =>
    if args.length = 2 then do
      match ← numbers name args with
      | [x, y] => return .boolean (relation.holds x y)
      | _ => Eval.fail (.arity name (.exactly 2) args.length)
    else Eval.fail (.arity name (.exactly 2) args.length)
  | .gather, args => return .list args

/-- The names of the builtins and what they do. -/
def builtins : List (String × Operation) :=
  [("+", .fold .add), ("-", .fold .subtract), ("*", .fold .multiply), ("/", .fold .divide),
    (">", .compare .greater), ("<", .compare .less), ("=", .compare .equal),
    ("<=", .compare .atMost), (">=", .compare .atLeast)]

/-- The bindings of a fresh root scope. -/
def rootBindings : Bindings Value :=
  .ofList (builtins.map fun (name, operation) => (name, .procedure (.builtin name operation)))

/-- A fresh root scope binds each builtin under its name, and nothing else. -/
theorem get?_rootBindings_iff {name : String} {value : Value} :
    rootBindings.get? name = some value ↔
      ∃ operation, (name, operation) ∈ builtins ∧ value = .procedure (.builtin name operation) := by
  constructor
  · intro h
    obtain ⟨⟨_, operation⟩, hmem, heq⟩ := List.mem_map.1 (Bindings.mem_of_get?_ofList h)
    obtain ⟨rfl, rfl⟩ := Prod.mk.inj heq
    exact ⟨operation, hmem, rfl⟩
  · rintro ⟨operation, hmem, rfl⟩
    exact Bindings.get?_ofList_of_mem (by decide) (List.mem_map.2 ⟨_, hmem, rfl⟩)

end Operation
end ScopedLisp
