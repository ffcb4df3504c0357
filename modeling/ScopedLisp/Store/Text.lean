import ScopedLisp.Number.Layout
import ScopedLisp.Store.Basic
import ScopedLisp.Text.Quoted

/-! # Texts of values and scopes

Values are printed as they would be typed and described by kind; a procedure has no literal form
and is shown between angle brackets. A closure shows its parameters, which its store knows. -/

namespace ScopedLisp.Store

/-- The text of a procedure. -/
def procedureText (s : Store) : Procedure → String
  | .builtin name _ => "<builtin " ++ name ++ ">"
  | .closure id =>
    "<lambda (" ++ " ".intercalate (((s.closure? id).map Closure.params).getD []) ++ ")>"

mutual

/-- The printed text of a value. -/
def text (s : Store) : Value → String
  | .number x => Number.text .plain x
  | .boolean b => if b then "true" else "false"
  | .symbol name => name
  | .list items => "(" ++ " ".intercalate (texts s items) ++ ")"
  | .procedure p => s.procedureText p

/-- The printed texts of a sequence of values. -/
def texts (s : Store) : List Value → List String
  | [] => []
  | item :: rest => text s item :: texts s rest

end

mutual

/-- The description of a value, which names its kind. -/
def describe (s : Store) : Value → String
  | .number x => "Number(" ++ Number.text .described x ++ ")"
  | .boolean b => "Boolean(" ++ (if b then "true" else "false") ++ ")"
  | .symbol name => "Symbol(" ++ Text.quoted name ++ ")"
  | .list items => "List(" ++ Text.bracketed (describeItems s items) ++ ")"
  | .procedure p => "Procedure(" ++ s.procedureText p ++ ")"

/-- The descriptions of a sequence of values. -/
def describeItems (s : Store) : List Value → List String
  | [] => []
  | item :: rest => describe s item :: describeItems s rest

end

/-- The description of a scope: its own names, and whether it has a parent. -/
def describeScope (s : Store) (id : ScopeId) : String :=
  "<environment " ++ Text.bracketed ((s.ownNames id).map Text.quoted) ++
    (if (s.parent? id).isSome then " ..." else "") ++ ">"

end ScopedLisp.Store
