import ScopedLisp.Store.Bindings
import ScopedLisp.Value.Basic

/-! # Stores

A store holds all scopes and closures made so far. A scope has own bindings and perhaps a parent;
a closure has parameters, a body and the scope it was made in. Both are known by their places, are
never removed, and a new one takes the next place. Own bindings change; nothing else does. -/

namespace ScopedLisp

/-- The parts of a closure. -/
structure Closure where
  params : List String
  body : Value
  scope : ScopeId

/-- Own bindings, and where to look for other names. -/
structure Scope where
  parent : Option ScopeId
  own : Bindings Value

/-- All scopes and closures made so far. -/
structure Store where
  scopes : Array Scope
  closures : Array Closure

namespace Store

/-- The store in which nothing was made yet. -/
def empty : Store := ⟨#[], #[]⟩

/-- The scope at a place. -/
def scope? (s : Store) (id : ScopeId) : Option Scope :=
  s.scopes[id.index]?

/-- The closure at a place. -/
def closure? (s : Store) (id : ClosureId) : Option Closure :=
  s.closures[id.index]?

/-- The parent of a scope. -/
def parent? (s : Store) (id : ScopeId) : Option ScopeId :=
  (s.scope? id).bind Scope.parent

/-- What a scope itself binds a name to. -/
def own? (s : Store) (id : ScopeId) (name : String) : Option Value :=
  (s.scope? id).bind fun scope => scope.own.get? name

/-- The names that a scope itself binds, ascending. -/
def ownNames (s : Store) (id : ScopeId) : List String :=
  ((s.scope? id).map fun scope => scope.own.names).getD []

theorem mem_ownNames_iff {s : Store} {id : ScopeId} {name : String} :
    name ∈ s.ownNames id ↔ (s.own? id name).isSome := by
  rw [ownNames, own?]
  cases s.scope? id with
  | none => simp
  | some scope => exact Bindings.mem_names_iff

/-- Makes a scope. -/
def addScope (s : Store) (parent : Option ScopeId) (own : Bindings Value) : ScopeId × Store :=
  (⟨s.scopes.size⟩, { s with scopes := s.scopes.push { parent, own } })

/-- Makes a closure. -/
def addClosure (s : Store) (closure : Closure) : ClosureId × Store :=
  (⟨s.closures.size⟩, { s with closures := s.closures.push closure })

/-- Binds a name in a scope itself, over an older binding there. -/
def define (s : Store) (id : ScopeId) (name : String) (value : Value) : Store :=
  { s with
    scopes := s.scopes.modify id.index fun scope =>
      { scope with own := scope.own.insert name value } }

@[simp] theorem closure?_define (s : Store) (id : ScopeId) (name : String) (value : Value)
    (closure : ClosureId) : (s.define id name value).closure? closure = s.closure? closure := rfl

theorem scope?_define (s : Store) (id other : ScopeId) (name : String) (value : Value) :
    (s.define id name value).scope? other =
      if other = id then
        (s.scope? id).map fun scope => { scope with own := scope.own.insert name value }
      else s.scope? other := by
  simp only [scope?, define, Array.getElem?_modify]
  by_cases h : other = id
  · simp [h]
  · have : id.index ≠ other.index := fun hi => h (by cases id; cases other; simp_all)
    simp [h, this]

@[simp] theorem parent?_define (s : Store) (id other : ScopeId) (name : String) (value : Value) :
    (s.define id name value).parent? other = s.parent? other := by
  simp only [parent?, scope?_define]
  split
  · next h => cases hs : s.scope? id <;> simp [h, hs]
  · rfl

/-- A definition is seen in its scope and name and nowhere else. -/
theorem own?_define (s : Store) (id other : ScopeId) (name key : String) (value : Value) :
    (s.define id name value).own? other key =
      if other = id ∧ key = name ∧ (s.scope? id).isSome then some value else s.own? other key := by
  simp only [own?, scope?_define]
  by_cases h : other = id
  · cases hs : s.scope? id with
    | none => simp [h, hs]
    | some scope => by_cases hk : key = name <;> simp [h, hs, hk]
  · simp [h]

end Store
end ScopedLisp
