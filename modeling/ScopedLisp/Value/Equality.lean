import ScopedLisp.Value.Basic

/-! # Equality as programs see it

Numbers are compared as doubles, lists item by item, builtins by name and closures by identity;
values of different kinds are never equal. This is not the equality of the type: not-a-number
differs from itself, and the two zeros are equal. -/

namespace ScopedLisp

namespace Value

mutual

/-- Whether two values are equal. -/
def equals : Value → Value → Bool
  | .number x, .number y => x == y
  | .boolean x, .boolean y => x == y
  | .symbol x, .symbol y => x == y
  | .list xs, .list ys => equalItems xs ys
  | .procedure p, .procedure q => p.isSame q
  | _, _ => false

/-- Whether two sequences have equal items and the same length. -/
def equalItems : List Value → List Value → Bool
  | [], [] => true
  | x :: xs, y :: ys => equals x y && equalItems xs ys
  | _, _ => false

end

example : equals (.list [.number 0, .symbol "a"]) (.list [.number (-0), .symbol "a"]) = true := by
  decide +kernel

end Value
end ScopedLisp
