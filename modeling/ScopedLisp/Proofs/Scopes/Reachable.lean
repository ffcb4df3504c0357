import Mathlib.Logic.Relation
import ScopedLisp.Proofs.Evaluation.Soundness
import ScopedLisp.Proofs.Scopes.WellFormed
import ScopedLisp.Session

/-! # Reachable stores

Everything that can be done to a store from outside is one of nine operations, each of which names
only scopes and closures that were made and may end with an error. Each keeps stores well formed and
makes them grow, and so does any sequence of them. Hence the scopes of a reachable store make up a
forest that only gets new leaves, in scopes that only get new names. -/

namespace ScopedLisp

theorem Outcome.answer?_ended (r : Except EvalError Value) (s : Store) :
    (Outcome.ended r s).answer? = some (r.map s.text, s) := by
  cases r <;> rfl

theorem Outcome.exists_ended_of_answer? {o : Outcome Value} {shown : Except EvalError String × Store}
    (h : o.answer? = some shown) : ∃ r, o = .ended r shown.2 := by
  cases o with
  | ok value s => exact ⟨.ok value, by cases h; rfl⟩
  | error cause s => exact ⟨.error cause, by cases h; rfl⟩
  | tooDeep => cases h

theorem Outcome.eq_error_of_answer? {o : Outcome Value} {cause : EvalError} {s : Store}
    (h : o.answer? = some (.error cause, s)) : o = .error cause s := by
  cases o with
  | error => cases h; rfl
  | ok | tooDeep => cases h

theorem Outcome.eq_tooDeep_of_answer? {o : Outcome Value} (h : o.answer? = none) : o = .tooDeep := by
  cases o with
  | tooDeep => rfl
  | ok | error => cases h

/-- A text that was run to an end is an expression that ended so, or it is none. -/
theorem Eval.ended_of_run {depth : Nat} {root : ScopeId} {text : String} {s t : Store}
    {r : Except EvalError Value} (h : run depth root text s = .ended r t) :
    (∃ e, Value.ofText text = .ok e ∧ Evaluator.within depth e root s = .ended r t) ∨
      ∃ cause, Value.ofText text = .error cause ∧ r = .error (.unreadable cause) ∧ t = s := by
  rw [run] at h
  cases htext : Value.ofText text with
  | ok e =>
    rw [htext] at h
    exact .inl ⟨e, rfl, h⟩
  | error cause =>
    rw [htext] at h
    exact .inr ⟨cause, rfl, Outcome.error_eq_ended_iff.1 h⟩

/-- An assignment writes to an owner of the name, or leaves the store as it is. -/
theorem Eval.ended_of_assign {a : ScopeId} {name : String} {v : Value} {s t : Store}
    {r : Except EvalError Unit} (h : assign a name v s = .ended r t) :
    (∃ owner, t = s.define owner name v) ∨ t = s := by
  rw [assign, Store.set?] at h
  cases howner : s.owner? a name with
  | some owner =>
    rw [howner] at h
    exact .inl ⟨owner, (Outcome.ok_eq_ended_iff.1 h).2⟩
  | none =>
    rw [howner] at h
    exact .inr (Outcome.error_eq_ended_iff.1 h).2

namespace Store

/-- An operation that ends leads from one store to another. -/
inductive Operates (s : Store) : Store → Prop
  | run {root text depth r t} (known : s.Has root)
      (ends : Eval.run depth root text s = .ended r t) : Operates s t
  | evaluate {e a depth r t} (known : s.Has a) (closed : s.Closed e)
      (ends : Evaluator.within depth e a s = .ended r t) : Operates s t
  | apply {p args depth r t} (closed : s.Closed (.procedure p))
      (closedArgs : ∀ arg ∈ args, s.Closed arg)
      (ends : Procedure.apply (Evaluator.within depth) p args s = .ended r t) : Operates s t
  | form {form operands a depth r t} (known : s.Has a)
      (closed : ∀ operand ∈ operands, s.Closed operand)
      (ends : Form.apply (Evaluator.within depth) form operands a s = .ended r t) : Operates s t
  | initial : Operates s s.addRoot.2
  | root {own} (closed : ∀ name value, own.get? name = some value → s.Closed value) :
      Operates s (s.addScope none own).2
  | child {a own} (known : s.Has a)
      (closed : ∀ name value, own.get? name = some value → s.Closed value) :
      Operates s (s.addScope (some a) own).2
  | define {a name value} (known : s.Has a) (closed : s.Closed value) :
      Operates s (s.define a name value)
  | assign {a name value r t} (known : s.Has a) (closed : s.Closed value)
      (ends : Eval.assign a name value s = .ended r t) : Operates s t

/-- A sequence of operations leads from one store to another. -/
def Leads : Store → Store → Prop := Relation.ReflTransGen Operates

variable {s t : Store}

/-- The builtins refer to nothing. -/
theorem closed_rootBindings (s : Store) {name : String} {value : Value}
    (h : Operation.rootBindings.get? name = some value) : s.Closed value := by
  obtain ⟨_, -, rfl⟩ := Operation.get?_rootBindings_iff.1 h
  exact closed_builtin s _ _

theorem WellFormed.addRoot (hs : s.WellFormed) : s.addRoot.2.WellFormed :=
  hs.addScope nofun fun _ _ => closed_rootBindings s

theorem WellFormed.later_of_run (hs : s.WellFormed) {root : ScopeId} {text : String} {depth : Nat}
    {r : Except EvalError Value} (hroot : s.Has root)
    (h : Eval.run depth root text s = .ended r t) : t.WellFormed ∧ s ≤ t := by
  rcases Eval.ended_of_run h with ⟨e, htext, hends⟩ | ⟨cause, -, -, rfl⟩
  · have hclosed := closed_of_isDatum (Value.isDatum_of_ofText htext) s
    exact later_of_agree (w := ⟨s, hs⟩) (agree_within hroot hclosed depth) hends
  · exact ⟨hs, le_rfl⟩

/-- Every operation keeps a store well formed and makes it grow. -/
theorem WellFormed.later_of_operates (hs : s.WellFormed) (h : Operates s t) :
    t.WellFormed ∧ s ≤ t := by
  cases h with
  | run known ends => exact hs.later_of_run known ends
  | evaluate known closed ends =>
    exact later_of_agree (w := ⟨s, hs⟩) (agree_within known closed _) ends
  | apply closed closedArgs ends =>
    exact later_of_agree (w := ⟨s, hs⟩) (agree_apply closed closedArgs _) ends
  | form known closed ends =>
    exact later_of_agree (w := ⟨s, hs⟩) (agree_form known closed _) ends
  | initial => exact ⟨hs.addRoot, le_addScope ..⟩
  | root closed => exact ⟨hs.addScope nofun closed, le_addScope ..⟩
  | child known closed =>
    exact ⟨hs.addScope (fun _ hp => Option.some.inj hp ▸ known) closed, le_addScope ..⟩
  | define known closed => exact ⟨hs.define _ _ closed, le_define ..⟩
  | assign known closed ends =>
    rcases Eval.ended_of_assign ends with ⟨owner, rfl⟩ | rfl
    · exact ⟨hs.define _ _ closed, le_define ..⟩
    · exact ⟨hs, le_rfl⟩

theorem WellFormed.later_of_leads (hs : s.WellFormed) (h : Leads s t) : t.WellFormed ∧ s ≤ t := by
  induction h with
  | refl => exact ⟨hs, le_rfl⟩
  | tail _ step ih =>
    obtain ⟨hwell, hle⟩ := ih.1.later_of_operates step
    exact ⟨hwell, le_trans ih.2 hle⟩

/-- The scopes of a store are a forest, and nothing refers to what is not there. -/
structure IsForest (s : Store) : Prop where
  has_parent : ∀ a p, s.parent? a = some p → s.Has p
  has_captured : ∀ c closure, s.closure? c = some closure → s.Has closure.scope
  closed_own : ∀ a name value, s.own? a name = some value → s.Closed value
  /-- There is no infinite way up, and so no way up that comes back. -/
  wellFounded : WellFounded fun p a => s.parent? a = some p
  /-- Lookup and assignment search the whole way up. -/
  chain_eq : ∀ a, s.chain a = a :: ((s.parent? a).map s.chain).getD []

/-- What can be relied on from one store to a later one. -/
structure Persists (s t : Store) : Prop where
  parent? : ∀ a, s.Has a → t.parent? a = s.parent? a
  own? : ∀ a name, (s.own? a name).isSome → (t.own? a name).isSome
  get? : ∀ a name, (s.get? a name).isSome → (t.get? a name).isSome

theorem WellFormed.isForest (hs : s.WellFormed) : s.IsForest where
  has_parent _ _ h := Nat.lt_trans (hs.parent h) (has_of_parent? h)
  has_captured _ _ h := (hs.captured h).1
  closed_own _ _ _ h := hs.bound h
  wellFounded := Subrelation.wf hs.parent (InvImage.wf ScopeId.index Nat.lt_wfRel.wf)
  chain_eq := hs.layered.chain_eq

/-- Whatever is done, the scopes make up a forest, parents never change, and names, once there, stay
and keep a meaning wherever they had one. -/
theorem isForest_and_persists_of_leads {s t : Store} (hs : Leads .empty s) (hst : Leads s t) :
    s.IsForest ∧ Persists s t := by
  obtain ⟨hwell, -⟩ := WellFormed.empty.later_of_leads hs
  obtain ⟨-, hle⟩ := hwell.later_of_leads hst
  exact ⟨hwell.isForest, fun _ => parent?_of_le hle, fun _ _ => own?_isSome_of_le hle,
    fun _ _ => get?_isSome_of_le hle⟩

/-- A closure bound in the scope it was made in, by a text that fails afterwards. -/
theorem isForest_and_persists_of_failed_text :
    ∃ s, Leads .empty s ∧ s.own? ⟨0⟩ "f" = some (.procedure (.closure ⟨0⟩)) ∧
      (s.closure? ⟨0⟩).map Closure.scope = some ⟨0⟩ ∧
      Leads s (s.define ⟨0⟩ "g" (.number 1)) ∧
      s.IsForest ∧ Persists s (s.define ⟨0⟩ "g" (.number 1)) := by
  have hshown : ((Session.start.run 10 "(+ (define f (lambda () f)) 1)").answer?.map fun shown =>
      (shown.2.own? ⟨0⟩ "f", (shown.2.closure? ⟨0⟩).map Closure.scope)) =
        some (some (.procedure (.closure ⟨0⟩)), some ⟨0⟩) := by decide +kernel
  obtain ⟨⟨answer, s⟩, hanswer, heq⟩ := Option.map_eq_some_iff.1 hshown
  obtain ⟨hbound, hscope⟩ := Prod.mk.inj heq
  obtain ⟨r, hends⟩ := Outcome.exists_ended_of_answer? hanswer
  have hs : Leads .empty s := .tail (.tail .refl .initial) (.run (has_addScope ..) hends)
  have ht : Leads s (s.define ⟨0⟩ "g" (.number 1)) :=
    .tail .refl (.define (has_of_own? hbound) nofun)
  exact ⟨s, hs, hbound, hscope, ht, isForest_and_persists_of_leads hs ht⟩

end Store
end ScopedLisp
