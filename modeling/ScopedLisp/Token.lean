import ScopedLisp.Text.Blank

/-! # Tokens

A text is cut into parentheses and atoms. Blanks separate atoms and are dropped; a parenthesis is a
token of its own wherever it stands; every other run of characters is one atom. -/

namespace ScopedLisp
open Text

/-- A piece of a text. -/
inductive Token where
  | opening
  | closing
  | atom (text : String)
deriving DecidableEq, Repr

namespace Token

/-- The spelling of a token. -/
def text : Token → String
  | opening => "("
  | closing => ")"
  | atom text => text

/-- Whether a character can stand in an atom. -/
def isAtomChar (c : Char) : Bool :=
  c != '(' && c != ')' && !isBlank c

/-- The tokens of a sequence of characters. -/
def scan : List Char → List Token
  | [] => []
  | c :: rest =>
    if c = '(' then opening :: scan rest
    else if c = ')' then closing :: scan rest
    else if isBlank c then scan rest
    else atom (String.ofList (c :: rest.takeWhile isAtomChar)) :: scan (rest.dropWhile isAtomChar)
termination_by cs => cs.length
decreasing_by
  all_goals simp only [List.length_cons]
  all_goals first
    | exact Nat.lt_succ_self _
    | exact Nat.lt_succ_of_le (List.dropWhile_sublist _).length_le

/-- The tokens of a text. -/
def ofText (s : String) : List Token :=
  scan s.toList

example : ofText " (a\u30001)b" = [opening, atom "a", atom "1", closing, atom "b"] := by
  decide +kernel

end Token
end ScopedLisp
