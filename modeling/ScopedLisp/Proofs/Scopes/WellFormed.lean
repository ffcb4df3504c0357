import Mathlib.Order.Basic
import ScopedLisp.Proofs.Printing.RoundTrip
import ScopedLisp.Proofs.Scopes.Growth
import ScopedLisp.Proofs.Simulation.Evaluation

/-! # Well-formed stores

In a well-formed store nothing refers to what was never made, and a parent is older than its
children. Age is what keeps chains of parents finite: closures may be bound in the very scope they
were made in, so the references among values do have cycles. Evaluation leads from well-formed stores
to well-formed stores that have grown, whether it ends with a value or with an error. -/

namespace ScopedLisp

namespace Store
variable {s t : Store}

/-- Whether all closures in a value were made. -/
def Closed (s : Store) (value : Value) : Prop :=
  ∀ c, Value.procedure (.closure c) ∈ value → s.HasClosure c

theorem Closed.mono {value : Value} (h : s.Closed value) (hst : s ≤ t) : t.Closed value :=
  fun c hc => (h c hc).mono hst

theorem closed_list_iff {items : List Value} :
    s.Closed (.list items) ↔ ∀ item ∈ items, s.Closed item :=
  Value.forall_closure_mem_list_iff

theorem closed_closure_iff {c : ClosureId} :
    s.Closed (.procedure (.closure c)) ↔ s.HasClosure c :=
  ⟨fun h => h c (Value.mem_self _), fun h d hd => by
    cases hd
    exact h⟩

theorem closed_symbol (s : Store) (name : String) : s.Closed (.symbol name) := nofun

theorem closed_builtin (s : Store) (name : String) (operation : Operation) :
    s.Closed (.procedure (.builtin name operation)) :=
  fun _ hc => nomatch hc

/-- A datum refers to nothing. -/
theorem closed_of_isDatum {accepted : Float → Prop} {value : Value} (h : value.IsDatum accepted)
    (s : Store) : s.Closed value := by
  induction h with
  | number | symbol => exact nofun
  | list _ ih => exact closed_list_iff.2 ih

/-- A value that refers to nothing is alike to itself, whichever closures count as the same. -/
theorem Closed.alike_self {value : Value} (h : Store.empty.Closed value)
    (same : ClosureId → ClosureId → Prop) : value.Alike same value :=
  .refl fun c hc => absurd (h c hc) (Nat.not_lt_zero _)

theorem own?_addScope (s : Store) (parent : Option ScopeId) (own : Bindings Value) (a : ScopeId)
    (name : String) :
    (s.addScope parent own).2.own? a name =
      if a = (s.addScope parent own).1 then own.get? name else s.own? a name := by
  rw [own?, scope?_addScope]
  split <;> rfl

/-- What holds of all bound values holds with a new scope, if it holds of those bound there. -/
theorem forall_own?_addScope {P : Value → Prop} {parent : Option ScopeId} {own : Bindings Value}
    (h : ∀ {a name v}, s.own? a name = some v → P v)
    (hnew : ∀ name v, own.get? name = some v → P v) {a : ScopeId} {name : String} {v : Value}
    (hown : (s.addScope parent own).2.own? a name = some v) : P v := by
  rw [own?_addScope] at hown
  split at hown
  · exact hnew name v hown
  · exact h hown

theorem parent?_addScope (s : Store) (parent : Option ScopeId) (own : Bindings Value)
    (a : ScopeId) :
    (s.addScope parent own).2.parent? a =
      if a = (s.addScope parent own).1 then parent else s.parent? a := by
  rw [parent?, scope?_addScope]
  split <;> rfl

/-- Every parent is older than its children, every closure in a value that is bound or in a body was
made, and so was the scope that a closure was made in. -/
structure WellFormed (s : Store) : Prop where
  parent : ∀ {a p}, s.parent? a = some p → p.index < a.index
  bound : ∀ {a name value}, s.own? a name = some value → s.Closed value
  captured : ∀ {c closure}, s.closure? c = some closure →
    s.Has closure.scope ∧ s.Closed closure.body

namespace WellFormed

theorem empty : Store.empty.WellFormed where
  parent h := by simp [parent?, scope?, Store.empty] at h
  bound h := by simp [own?, scope?, Store.empty] at h
  captured h := by simp [closure?, Store.empty] at h

theorem addScope (hs : s.WellFormed) {parent : Option ScopeId} {own : Bindings Value}
    (hparent : ∀ p, parent = some p → s.Has p)
    (hown : ∀ name value, own.get? name = some value → s.Closed value) :
    (s.addScope parent own).2.WellFormed where
  parent {a p} h := by
    rw [parent?_addScope] at h
    split at h
    · next ha => exact ha ▸ hparent p h
    · exact hs.parent h
  bound :=
    have hle := le_addScope s parent own
    forall_own?_addScope (fun h => (hs.bound h).mono hle) fun name v h => (hown name v h).mono hle
  captured h :=
    have hle := le_addScope s parent own
    ⟨(hs.captured h).1.mono hle, (hs.captured h).2.mono hle⟩

theorem addClosure (hs : s.WellFormed) {closure : Closure} (hscope : s.Has closure.scope)
    (hbody : s.Closed closure.body) : (s.addClosure closure).2.WellFormed where
  parent h := hs.parent h
  bound h := (hs.bound h).mono (le_addClosure s closure)
  captured {c other} h := by
    have hle := le_addClosure s closure
    rw [closure?_addClosure] at h
    split at h
    · obtain rfl := Option.some.inj h
      exact ⟨hscope, hbody.mono hle⟩
    · exact ⟨(hs.captured h).1.mono hle, (hs.captured h).2.mono hle⟩

theorem define (hs : s.WellFormed) (a : ScopeId) (name : String) {value : Value}
    (hvalue : s.Closed value) : (s.define a name value).WellFormed where
  parent h := hs.parent (parent?_define .. ▸ h)
  bound :=
    have hle := le_define s a name value
    forall_own?_define (fun h => (hs.bound h).mono hle) (hvalue.mono hle)
  captured h :=
    have hle := le_define s a name value
    ⟨(hs.captured h).1.mono hle, (hs.captured h).2.mono hle⟩

theorem set? (hs : s.WellFormed) {a : ScopeId} {name : String} {value : Value}
    (hvalue : s.Closed value) (h : s.set? a name value = some t) : t.WellFormed := by
  obtain ⟨owner, -, rfl⟩ := Option.map_eq_some_iff.1 h
  exact hs.define owner name hvalue

theorem closed_of_get? (hs : s.WellFormed) {a : ScopeId} {name : String} {value : Value}
    (h : s.get? a name = some value) : s.Closed value := by
  obtain ⟨b, -, hown⟩ := List.exists_of_findSome?_eq_some h
  exact hs.bound hown

theorem layered (hs : s.WellFormed) : s.Layered := fun _ _ => hs.parent

end WellFormed

/-- One well-formed store on both sides, where equal values that refer to what was made correspond and
equal code may run in equal scopes that were made. -/
def oneStore : Correspondence {s : Store // s.WellFormed} where
  left := Subtype.val
  right := Subtype.val
  value w v v' := v = v' ∧ w.1.Closed v
  code w e a e' b := e = e' ∧ a = b ∧ w.1.Closed e ∧ w.1.Has a

theorem oneStore_later_addScope (w : {s : Store // s.WellFormed}) {e : Value} {a : ScopeId}
    {own : Bindings Value} (he : w.1.Closed e) (ha : w.1.Has a)
    (hown : ∀ name value, own.get? name = some value → w.1.Closed value) :
    oneStore.Later w (w.1.addScope (some a) own).2 (w.1.addScope (some a) own).2 fun w' =>
      oneStore.code w' e (w.1.addScope (some a) own).1 e (w.1.addScope (some a) own).1 :=
  have hle := le_addScope w.1 (some a) own
  ⟨⟨_, w.2.addScope (fun _ hp => Option.some.inj hp ▸ ha) hown⟩, hle, rfl, rfl, rfl, rfl,
    he.mono hle, has_addScope ..⟩

/-- Well-formedness is a simulation of each store by itself. -/
def invariant : Simulation {s : Store // s.WellFormed} where
  toCorrespondence := oneStore
  value_mono hw h := ⟨h.1, h.2.mono hw⟩
  code_mono hw h := ⟨h.1, h.2.1, h.2.2.1.mono hw, h.2.2.2.mono hw⟩
  alike := by
    rintro w v _ ⟨rfl, -⟩
    exact .refl fun _ _ => rfl
  code_value h := ⟨h.1, h.2.2.1⟩
  code_items := by
    rintro w items a _ _ ⟨heq, rfl, hclosed, ha⟩
    obtain rfl := Value.list.inj heq
    exact List.forall₂_same.2 fun item hitem => ⟨rfl, rfl, closed_list_iff.1 hclosed item hitem, ha⟩
  number _ := ⟨rfl, nofun⟩
  boolean _ := ⟨rfl, nofun⟩
  gather := by
    rintro w name args args' - h
    obtain ⟨rfl, hclosed⟩ := forall₂_eq_and_iff.1 h
    exact ⟨rfl, closed_list_iff.2 hclosed⟩
  lookup := by
    rintro w name a _ ⟨-, rfl, -, -⟩ -
    exact rel_eq_and_self fun _ => w.2.closed_of_get?
  define := by
    rintro w name expr a _ _ v _ ⟨-, rfl, -, -⟩ - ⟨rfl, hv⟩
    exact ⟨⟨_, w.2.define a name hv⟩, le_define .., rfl, rfl, trivial⟩
  assign := by
    rintro w name expr a _ _ v _ ⟨-, rfl, -, -⟩ - ⟨rfl, hv⟩
    change Option.Rel _ (w.1.set? a name v) (w.1.set? a name v)
    cases h : w.1.set? a name v with
    | some t => exact .some ⟨⟨t, w.2.set? hv h⟩, le_of_set? h, rfl, rfl, trivial⟩
    | none => exact .none
  child := by
    rintro w e a _ _ own _ ⟨rfl, rfl, he, ha⟩ hown -
    obtain ⟨rfl, hclosed⟩ := hown.eq
    exact oneStore_later_addScope w he ha hclosed
  lambda := by
    rintro w targets body a targets' body' _ params ⟨heq, rfl, hclosed, ha⟩ - -
    obtain ⟨rfl, rfl⟩ : targets = targets' ∧ body = body' := by simpa using heq
    have hbody := closed_list_iff.1 hclosed body (by simp)
    exact ⟨⟨_, w.2.addClosure ha hbody⟩, le_addClosure .., rfl, rfl, rfl,
      closed_closure_iff.2 (hasClosure_addClosure ..)⟩
  call := by
    rintro w c _ C D ⟨heq, -⟩ hC hD args args' hargs -
    obtain rfl : c = _ := by simpa using heq
    obtain rfl := Option.some.inj (hC ▸ hD)
    obtain ⟨heq, hclosed⟩ := (Bindings.Related.ofList_zip C.params hargs).eq
    obtain ⟨hscope, hbody⟩ := w.2.captured hC
    rw [← heq]
    exact oneStore_later_addScope w hbody hscope hclosed

section
variable {w : {s : Store // s.WellFormed}}

/-- Evaluation of what was made keeps the invariant, and so do applications and forms. -/
theorem agree_within {e : Value} {a : ScopeId} (ha : w.1.Has a) (he : w.1.Closed e) (depth : Nat) :
    invariant.Agree w invariant.value (Evaluator.within depth e a) (Evaluator.within depth e a) :=
  Simulation.respects_within depth ⟨rfl, rfl, he, ha⟩

theorem agree_apply {p : Procedure} {args : List Value} (hp : w.1.Closed (.procedure p))
    (hargs : ∀ arg ∈ args, w.1.Closed arg) (depth : Nat) :
    invariant.Agree w invariant.value (p.apply (Evaluator.within depth) args)
      (p.apply (Evaluator.within depth) args) := by
  refine Simulation.Respects.apply (Simulation.respects_within depth) ⟨rfl, hp⟩ ?_
  exact List.forall₂_same.2 fun arg harg => ⟨rfl, hargs arg harg⟩

theorem agree_form {form : Form} {operands : List Value} {a : ScopeId} (ha : w.1.Has a)
    (hoperands : ∀ operand ∈ operands, w.1.Closed operand) (depth : Nat) :
    invariant.Agree w invariant.value (form.apply (Evaluator.within depth) operands a)
      (form.apply (Evaluator.within depth) operands a) := by
  refine Simulation.Respects.form (Simulation.respects_within depth) ⟨rfl, rfl, ?_, ha⟩
  exact closed_list_iff.2 (List.forall_mem_cons.2 ⟨closed_symbol _ _, hoperands⟩)

/-- A computation that keeps the invariant leads to a later well-formed store. -/
theorem later_of_agree {α : Type} {R : {s : Store // s.WellFormed} → α → α → Prop} {x : Eval α}
    (h : invariant.Agree w R x x) {r : Except EvalError α} {t : Store}
    (hx : x w.1 = .ended r t) : t.WellFormed ∧ w.1 ≤ t := by
  change oneStore.OutcomesAgree w R (x w.1) (x w.1) at h
  rw [hx] at h
  obtain ⟨w', hw', rfl⟩ := h.exists_left
  exact ⟨w'.2, hw'⟩

/-- What a computation that keeps the invariant answers refers to what was made. -/
theorem closed_of_agree {x : Eval Value} (h : invariant.Agree w invariant.value x x) {v : Value}
    {t : Store} (hx : x w.1 = .ok v t) : t.Closed v := by
  change oneStore.OutcomesAgree w oneStore.value (x w.1) (x w.1) at h
  rw [hx] at h
  obtain ⟨_, _, -, -, rfl, -, hv⟩ := h.exists_of_ok
  exact hv

end

/-- A value that an evaluation ends with refers to what was made. -/
theorem WellFormed.later_of_ok (hs : s.WellFormed) {e v : Value} {a : ScopeId} (ha : s.Has a)
    (he : s.Closed e) {depth : Nat} (hends : Evaluator.within depth e a s = .ok v t) :
    t.WellFormed ∧ s ≤ t ∧ t.Closed v := by
  have hrun := agree_within (w := ⟨s, hs⟩) ha he depth
  obtain ⟨ht, hst⟩ := later_of_agree hrun (r := .ok v) hends
  exact ⟨ht, hst, closed_of_agree hrun hends⟩

end Store
end ScopedLisp
