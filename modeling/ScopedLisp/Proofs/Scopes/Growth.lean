import Mathlib.Order.Defs.PartialOrder
import ScopedLisp.Store.Chain

/-! # Growth of stores

Nothing is ever taken out of a store: scopes keep their parents and do not lose names, closures stay
as they were made. This makes an order on stores, `s ≤ t`, in which every primitive operation leads
upwards. Along it the chain of a scope stays the same, and a name that has a meaning keeps having
one. -/

namespace ScopedLisp.Store
variable {s t : Store}

/-- Whether a scope was made. -/
def Has (s : Store) (a : ScopeId) : Prop := a.index < s.scopes.size

/-- Whether a closure was made. -/
def HasClosure (s : Store) (c : ClosureId) : Prop := c.index < s.closures.size

instance (s : Store) (a : ScopeId) : Decidable (s.Has a) := inferInstanceAs (Decidable (_ < _))

instance (s : Store) (c : ClosureId) : Decidable (s.HasClosure c) :=
  inferInstanceAs (Decidable (_ < _))

theorem has_iff {a : ScopeId} : s.Has a ↔ ∃ scope, s.scope? a = some scope := by
  rw [← Option.isSome_iff_exists, scope?, isSome_getElem?, Has]

theorem hasClosure_iff {c : ClosureId} :
    s.HasClosure c ↔ ∃ closure, s.closure? c = some closure := by
  rw [← Option.isSome_iff_exists, closure?, isSome_getElem?, HasClosure]

theorem has_of_parent? {a p : ScopeId} (h : s.parent? a = some p) : s.Has a := by
  obtain ⟨scope, hscope, -⟩ := Option.bind_eq_some_iff.1 h
  exact has_iff.2 ⟨scope, hscope⟩

theorem own?_of_scope? {a : ScopeId} {scope : Scope} (h : s.scope? a = some scope)
    (name : String) : s.own? a name = scope.own.get? name := by
  rw [own?, h, Option.bind_some]

theorem has_of_own? {a : ScopeId} {name : String} {value : Value}
    (h : s.own? a name = some value) : s.Has a := by
  obtain ⟨scope, hscope, -⟩ := Option.bind_eq_some_iff.1 h
  exact has_iff.2 ⟨scope, hscope⟩

/-- Whether every parent is older than its children. -/
def Layered (s : Store) : Prop :=
  ∀ ⦃a p⦄, s.parent? a = some p → p.index < a.index

/-- The chain of a scope goes on to a scope without parent. -/
theorem Layered.chain_eq (hs : s.Layered) (a : ScopeId) :
    s.chain a = a :: ((s.parent? a).map s.chain).getD [] := by
  rw [chain]
  cases h : s.parent? a with
  | none => rfl
  | some parent => simp [hs h]

/-- What holds of a scope as soon as it holds of its parent holds of all scopes. -/
theorem Layered.induction {P : ScopeId → Prop} (hs : s.Layered)
    (h : ∀ a, (∀ p, s.parent? a = some p → P p) → P a) (a : ScopeId) : P a :=
  h a fun p _ => hs.induction h p
termination_by a.index
decreasing_by exact hs ‹_›

/-! ### What the primitives make -/

theorem scope?_addScope (s : Store) (parent : Option ScopeId) (own : Bindings Value)
    (a : ScopeId) :
    (s.addScope parent own).2.scope? a =
      if a = (s.addScope parent own).1 then some { parent, own } else s.scope? a := by
  obtain ⟨i⟩ := a
  simp [addScope, scope?, Array.getElem?_push]

theorem closure?_addClosure (s : Store) (closure : Closure) (c : ClosureId) :
    (s.addClosure closure).2.closure? c =
      if c = (s.addClosure closure).1 then some closure else s.closure? c := by
  obtain ⟨i⟩ := c
  simp [addClosure, closure?, Array.getElem?_push]

/-- What holds of all closures, and of a new one, holds with the new one made. -/
theorem forall_closure?_addClosure {P : Closure → Prop} {closure : Closure}
    (h : ∀ {c other}, s.closure? c = some other → P other) (hnew : P closure) {c : ClosureId}
    {other : Closure} (hc : (s.addClosure closure).2.closure? c = some other) : P other := by
  rw [closure?_addClosure] at hc
  split at hc
  · exact Option.some.inj hc ▸ hnew
  · exact h hc

/-- What holds of all bound values, and of another one, holds with that one bound. -/
theorem forall_own?_define {P : Value → Prop} {b : ScopeId} {key : String} {value : Value}
    (h : ∀ {a name v}, s.own? a name = some v → P v) (hnew : P value) {a : ScopeId} {name : String}
    {v : Value} (hown : (s.define b key value).own? a name = some v) : P v := by
  rw [own?_define] at hown
  split at hown
  · exact Option.some.inj hown ▸ hnew
  · exact h hown

@[simp] theorem size_scopes_define (s : Store) (a : ScopeId) (name : String) (value : Value) :
    (s.define a name value).scopes.size = s.scopes.size := by
  simp [define]

theorem not_has_addScope (s : Store) (parent : Option ScopeId) (own : Bindings Value) :
    ¬ s.Has (s.addScope parent own).1 :=
  Nat.lt_irrefl _

theorem has_addScope (s : Store) (parent : Option ScopeId) (own : Bindings Value) :
    (s.addScope parent own).2.Has (s.addScope parent own).1 := by
  simp [Has, addScope]

theorem not_hasClosure_addClosure (s : Store) (closure : Closure) :
    ¬ s.HasClosure (s.addClosure closure).1 :=
  Nat.lt_irrefl _

theorem hasClosure_addClosure (s : Store) (closure : Closure) :
    (s.addClosure closure).2.HasClosure (s.addClosure closure).1 := by
  simp [HasClosure, addClosure]

theorem has_addScope_iff (s : Store) (parent : Option ScopeId) (own : Bindings Value)
    {a : ScopeId} :
    (s.addScope parent own).2.Has a ↔ s.Has a ∨ a = (s.addScope parent own).1 := by
  rw [has_iff, scope?_addScope]
  by_cases h : a = (s.addScope parent own).1
  · simp [h]
  · simp [h, has_iff]

theorem scope?_addScope_of_has {a : ScopeId} (h : s.Has a) (parent : Option ScopeId)
    (own : Bindings Value) : (s.addScope parent own).2.scope? a = s.scope? a := by
  rw [scope?_addScope, if_neg]
  rintro rfl
  exact not_has_addScope s parent own h

/-! ### The order -/

/-- Everything made stays, scopes with their parents and their names, closures as they are. -/
structure Grows (s t : Store) : Prop where
  scope : ∀ {a before}, s.scope? a = some before → ∃ after, t.scope? a = some after ∧
    after.parent = before.parent ∧ ∀ name, before.own.contains name → after.own.contains name
  closure : ∀ {c closure}, s.closure? c = some closure → t.closure? c = some closure

instance : Preorder Store where
  le := Grows
  le_refl _ := ⟨fun h => ⟨_, h, rfl, fun _ => id⟩, id⟩
  le_trans _ _ _ hst htu :=
    ⟨fun h => by
      obtain ⟨middle, hmiddle, hparent, hnames⟩ := hst.scope h
      obtain ⟨after, hafter, hparent', hnames'⟩ := htu.scope hmiddle
      exact ⟨after, hafter, hparent'.trans hparent,
        fun name hname => hnames' name (hnames name hname)⟩,
    fun h => htu.closure (hst.closure h)⟩

theorem le_addScope (s : Store) (parent : Option ScopeId) (own : Bindings Value) :
    s ≤ (s.addScope parent own).2 where
  scope h :=
    ⟨_, (scope?_addScope_of_has (has_iff.2 ⟨_, h⟩) parent own).trans h, rfl, fun _ => id⟩
  closure h := h

theorem le_addClosure (s : Store) (closure : Closure) : s ≤ (s.addClosure closure).2 where
  scope h := ⟨_, h, rfl, fun _ => id⟩
  closure h := by
    rw [closure?_addClosure, if_neg, h]
    rintro rfl
    exact not_hasClosure_addClosure s closure (hasClosure_iff.2 ⟨_, h⟩)

theorem le_define (s : Store) (a : ScopeId) (name : String) (value : Value) :
    s ≤ s.define a name value where
  scope {other before} h := by
    rw [scope?_define]
    split
    · next hother =>
      subst hother
      refine ⟨{ before with own := before.own.insert name value }, by rw [h, Option.map_some], rfl,
        fun key hkey => ?_⟩
      rw [Bindings.contains, Bindings.get?_insert]
      split
      · rfl
      · exact hkey
    · exact ⟨before, h, rfl, fun _ => id⟩
  closure h := h

theorem le_of_set? {a : ScopeId} {name : String} {value : Value}
    (h : s.set? a name value = some t) : s ≤ t := by
  obtain ⟨owner, -, rfl⟩ := Option.map_eq_some_iff.1 h
  exact le_define s owner name value

/-! ### What stays along the order -/

theorem Has.mono {a : ScopeId} (h : s.Has a) (hst : s ≤ t) : t.Has a := by
  obtain ⟨scope, hscope⟩ := has_iff.1 h
  obtain ⟨after, hafter, -⟩ := hst.scope hscope
  exact has_iff.2 ⟨after, hafter⟩

theorem HasClosure.mono {c : ClosureId} (h : s.HasClosure c) (hst : s ≤ t) : t.HasClosure c := by
  obtain ⟨closure, hclosure⟩ := hasClosure_iff.1 h
  exact hasClosure_iff.2 ⟨closure, hst.closure hclosure⟩

theorem parent?_of_le (hst : s ≤ t) {a : ScopeId} (h : s.Has a) : t.parent? a = s.parent? a := by
  obtain ⟨scope, hscope⟩ := has_iff.1 h
  obtain ⟨after, hafter, hparent, -⟩ := hst.scope hscope
  simp [parent?, hscope, hafter, hparent]

theorem own?_isSome_of_le (hst : s ≤ t) {a : ScopeId} {name : String}
    (h : (s.own? a name).isSome) : (t.own? a name).isSome := by
  obtain ⟨value, hvalue⟩ := Option.isSome_iff_exists.1 h
  obtain ⟨scope, hscope, hget⟩ := Option.bind_eq_some_iff.1 hvalue
  obtain ⟨after, hafter, -, hnames⟩ := hst.scope hscope
  have := hnames name (Option.isSome_iff_exists.2 ⟨value, hget⟩)
  simpa [own?, hafter, Bindings.contains] using this

/-- What holds of a scope, and of the parent of each scope for which it holds, holds along the chain. -/
theorem forall_mem_chain {P : ScopeId → Prop} {a : ScopeId} (ha : P a)
    (hparent : ∀ b p, s.parent? b = some p → p.index < b.index → P b → P p) :
    ∀ b ∈ s.chain a, P b := by
  fun_induction chain s a with
  | case1 a ih =>
    refine List.forall_mem_cons.2 ⟨ha, ?_⟩
    cases hp : s.parent? a with
    | none => exact List.forall_mem_nil _
    | some p =>
      by_cases hlt : p.index < a.index
      · simpa [hlt] using ih p hlt (hparent a p hp hlt ha)
      · simp [hlt]

/-- The chain of a scope holds scopes that were made. -/
theorem has_of_mem_chain {a b : ScopeId} (ha : s.Has a) (h : b ∈ s.chain a) : s.Has b :=
  forall_mem_chain ha (fun _ _ _ hlt => Nat.lt_trans hlt) b h

/-- Growth never changes the chain of a scope that was made. -/
theorem chain_of_le (hst : s ≤ t) {a : ScopeId} (ha : s.Has a) : t.chain a = s.chain a := by
  fun_induction chain s a with
  | case1 a ih =>
    rw [chain, parent?_of_le hst ha]
    cases hparent : s.parent? a with
    | none => rfl
    | some parent =>
      by_cases hlt : parent.index < a.index
      · simp [hlt, ih parent hlt (Nat.lt_trans hlt ha)]
      · simp [hlt]

theorem chain_addScope_of_has {a : ScopeId} (ha : s.Has a) (parent : Option ScopeId)
    (own : Bindings Value) : (s.addScope parent own).2.chain a = s.chain a :=
  chain_of_le (le_addScope s parent own) ha

/-- A new scope stands before the chain of its parent. -/
theorem chain_addScope {parent : ScopeId} (h : s.Has parent) (own : Bindings Value) :
    (s.addScope (some parent) own).2.chain (s.addScope (some parent) own).1 =
      (s.addScope (some parent) own).1 :: s.chain parent := by
  have hparent : (s.addScope (some parent) own).2.parent? (s.addScope (some parent) own).1 =
      some parent := by
    simp [parent?, scope?_addScope]
  have hlt : parent.index < (s.addScope (some parent) own).1.index := h
  rw [chain, hparent]
  simp only [hlt, if_true, chain_addScope_of_has h]

theorem chain_addScope_none (s : Store) (own : Bindings Value) :
    (s.addScope none own).2.chain (s.addScope none own).1 = [(s.addScope none own).1] := by
  rw [chain]
  simp [parent?, scope?_addScope]

/-- A name that has a meaning in a scope has one there in every later store. -/
theorem get?_isSome_of_le (hst : s ≤ t) {a : ScopeId} {name : String}
    (h : (s.get? a name).isSome) : (t.get? a name).isSome := by
  obtain ⟨b, hb, hown⟩ : ∃ b ∈ s.chain a, (s.own? b name).isSome := by
    simpa [get?, List.isSome_findSome?] using h
  have ha : s.Has a := by
    rw [chain] at hb
    rcases List.mem_cons.1 hb with rfl | hb
    · exact has_of_own? (Option.isSome_iff_exists.1 hown).choose_spec
    · cases hparent : s.parent? a with
      | none => simp [hparent] at hb
      | some parent => exact has_of_parent? hparent
  rw [get?, chain_of_le hst ha, List.isSome_findSome?, List.any_eq_true]
  exact ⟨b, hb, own?_isSome_of_le hst hown⟩

end ScopedLisp.Store
