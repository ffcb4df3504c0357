import ScopedLisp.Store.Basic

/-! # Chains of scopes

A name is looked up in a scope, then in its parent, and so on outwards; the first scope on this
chain that binds the name answers, and assignment writes to that same scope. A parent is older than
its children, and the chain follows a parent only where that holds, so it is finite. -/

namespace ScopedLisp.Store

/-- A scope and those around it, innermost first. -/
def chain (s : Store) (id : ScopeId) : List ScopeId :=
  id ::
    match s.parent? id with
    | some parent => if parent.index < id.index then chain s parent else []
    | none => []
termination_by id.index

/-- What a name means in a scope. -/
def get? (s : Store) (id : ScopeId) (name : String) : Option Value :=
  (s.chain id).findSome? fun scope => s.own? scope name

/-- The nearest scope on the chain that binds a name. -/
def owner? (s : Store) (id : ScopeId) (name : String) : Option ScopeId :=
  (s.chain id).find? fun scope => (s.own? scope name).isSome

/-- Writes to the nearest binding of a name, if there is one. -/
def set? (s : Store) (id : ScopeId) (name : String) (value : Value) : Option Store :=
  (s.owner? id name).map fun owner => s.define owner name value

/-- Chains depend on the parents alone. -/
theorem chain_congr {s t : Store} (h : ∀ id, s.parent? id = t.parent? id) (id : ScopeId) :
    s.chain id = t.chain id := by
  fun_induction chain s id with
  | case1 id ih =>
    rw [chain, ← h]
    cases hparent : s.parent? id with
    | none => rfl
    | some parent =>
      by_cases hlt : parent.index < id.index
      · simp [hlt, ih parent hlt]
      · simp [hlt]

@[simp] theorem chain_define (s : Store) (id other : ScopeId) (name : String) (value : Value) :
    (s.define id name value).chain other = s.chain other :=
  chain_congr (fun _ => parent?_define ..) other

/-- A name has a meaning where it has an owner. -/
theorem get?_eq_owner? (s : Store) (id : ScopeId) (name : String) :
    s.get? id name = (s.owner? id name).bind fun owner => s.own? owner name := by
  rw [get?, owner?]
  induction s.chain id with
  | nil => rfl
  | cons scope rest ih => cases h : s.own? scope name <;> simp [List.findSome?, List.find?, h, ih]

end ScopedLisp.Store
