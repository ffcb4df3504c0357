import Mathlib.Data.List.Induction
import ScopedLisp.Proofs.Evaluation.Rules

/-! # Equations of evaluation

What one step of evaluation makes of each shape of expression, for any evaluator of the parts: heads
that are keywords, applications, wrong numbers of operands, names and parameters. -/

namespace ScopedLisp

theorem Value.form?_eq_none_iff (head : Value) :
    head.form? = none ↔ ∀ form : Form, head ≠ .symbol form.keyword := by
  constructor
  · rintro h form rfl
    simp [Value.form?, Form.ofKeyword?_keyword] at h
  · intro h
    cases head with
    | symbol name =>
      cases hform : Form.ofKeyword? name with
      | none => exact hform
      | some form => exact absurd (by rw [Form.keyword_of_ofKeyword? hform]) (h form)
    | _ => rfl

theorem Value.form?_eq_some_iff (head : Value) (form : Form) :
    head.form? = some form ↔ head = .symbol form.keyword := by
  constructor
  · intro h
    cases head with
    | symbol name => rw [Form.keyword_of_ofKeyword? h]
    | _ => cases h
  · rintro rfl
    exact Form.ofKeyword?_keyword form

/-- Applies the first of a sequence of values to the rest. -/
def Evaluator.applyFirst (ev : Evaluator) : List Value → Eval Value
  | .procedure p :: args => p.apply ev args
  | operator :: _ => do
    let text ← Eval.textOf operator
    Eval.fail (.notCallable text)
  | [] => pure (.list [])

theorem Evaluator.applyFirst_of_not_callable (ev : Evaluator) {s : Store} {operator : Value}
    (h : ¬ s.IsCallable operator) (args : List Value) :
    ev.applyFirst (operator :: args) s = .error (.notCallable (s.text operator)) s := by
  cases operator with
  | procedure p =>
    cases p with
    | builtin name operation => exact absurd trivial h
    | closure id =>
      have hid : s.closure? id = none := by simpa [Store.IsCallable] using h
      simp [applyFirst, Procedure.apply, hid]
  | _ => rfl

theorem Evaluator.applyFirst_closure (ev : Evaluator) {s : Store} {id : ClosureId} {parts : Closure}
    (known : s.closure? id = some parts) {args : List Value}
    (count : args.length = parts.params.length) :
    ev.applyFirst (.procedure (.closure id) :: args) s =
      (Eval.newScope parts.scope (.ofList (parts.params.zip args)) >>= ev parts.body) s := by
  simp only [applyFirst, Procedure.apply, Eval.bind_apply, Eval.closure?_apply, known, count, if_true]

/-- A list that no keyword heads has all its elements evaluated before it is applied. -/
theorem Evaluator.step_list (ev : Evaluator) {head : Value}
    (ordinary : ∀ form : Form, head ≠ .symbol form.keyword) (operands : List Value)
    (scope : ScopeId) :
    step ev (.list (head :: operands)) scope =
      ev.all scope (head :: operands) >>= ev.applyFirst := by
  have hhead := (Value.form?_eq_none_iff head).2 ordinary
  simp only [step, hhead, Evaluator.all, bind_assoc, pure_bind]
  congr 1
  funext operator
  congr 1
  funext args
  cases operator <;> rfl

namespace Form

/-- A form with the wrong number of operands fails before it does anything. -/
theorem apply_of_length_ne (ev : Evaluator) {form : Form} {operands : List Value}
    (h : operands.length ≠ form.operandCount) (scope : ScopeId) :
    form.apply ev operands scope =
      Eval.fail (.malformed form (.operandCount form.operandCount operands.length)) := by
  unfold apply
  split <;> first | rfl | exact absurd rfl h

theorem nameOf_of_some (form : Form) {target : Value} {name : String}
    (h : target.bindableName? = some name) : form.nameOf target = pure name := by
  simp [nameOf, h]

theorem nameOf_of_none (form : Form) {target : Value} (h : target.bindableName? = none)
    (s : Store) :
    form.nameOf target s = .error (.malformed form (.unbindable (s.text target))) s := by
  simp [nameOf, h]

theorem bindAll_of_not_pair (ev : Evaluator) (scope : ScopeId) (own : Bindings Value)
    {binding : Value} (shape : ∀ target initializer, binding ≠ .list [target, initializer])
    (rest : List Value) (s : Store) :
    bindAll ev scope own (binding :: rest) s =
      .error (.malformed .bind (.notPair (s.text binding))) s := by
  cases binding with
  | list items =>
    rcases items with _ | ⟨target, _ | ⟨initializer, _ | ⟨third, more⟩⟩⟩
    · rfl
    · rfl
    · exact absurd rfl (shape target initializer)
    · rfl
  | _ => rfl

theorem apply_bind_of_not_list (ev : Evaluator) {bindings : Value}
    (shape : ∀ items, bindings ≠ .list items) (body : Value) (scope : ScopeId) (s : Store) :
    apply ev .bind [bindings, body] scope s = .error (.malformed .bind .bindingsNotList) s := by
  cases bindings with
  | list items => exact absurd rfl (shape items)
  | _ => rfl

theorem apply_lambda_of_not_list (ev : Evaluator) {targets : Value}
    (shape : ∀ items, targets ≠ .list items) (body : Value) (scope : ScopeId) (s : Store) :
    apply ev .lambda [targets, body] scope s =
      .error (.malformed .lambda .parametersNotList) s := by
  cases targets with
  | list items => exact absurd rfl (shape items)
  | _ => rfl

theorem parameters_append_of_seen {before : List Value} (rest : List Value)
    {params seen : List String} (named : before.map Value.bindableName? = params.map some)
    (distinct : (seen ++ params).Nodup) :
    parameters seen (before ++ rest) = parameters (seen ++ params) rest := by
  induction before generalizing params seen with
  | nil =>
    obtain rfl : params = [] := by simpa using named.symm
    simp
  | cons target before ih =>
    cases params with
    | nil => simp at named
    | cons name params =>
      obtain ⟨hname, hbefore⟩ : target.bindableName? = some name ∧
          before.map Value.bindableName? = params.map some := by simpa using named
      have hfresh : name ∉ seen := by
        intro hmem
        exact (List.nodup_append.1 distinct).2.2 name hmem name (by simp) rfl
      rw [List.append_cons] at distinct ⊢
      simp [parameters, nameOf_of_some _ hname, hfresh, ih hbefore distinct]

/-- Parameters with distinct bindable names are taken over one by one. -/
theorem parameters_append {before : List Value} (rest : List Value) {params : List String}
    (named : before.map Value.bindableName? = params.map some) (distinct : params.Nodup) :
    parameters [] (before ++ rest) = parameters params rest :=
  parameters_append_of_seen rest named distinct

theorem parameters_eq_pure {targets : List Value} {params : List String}
    (named : targets.map Value.bindableName? = params.map some) (distinct : params.Nodup) :
    parameters [] targets = pure params := by
  simpa [parameters] using parameters_append [] named distinct

/-- A sequence of parameters is either a sequence of distinct bindable names, or such names go
before a first one that cannot be bound or is bound already. -/
theorem parameters_cases (targets : List Value) :
    (∃ params : List String, targets.map Value.bindableName? = params.map some ∧ params.Nodup) ∨
    ∃ (before : List Value) (target : Value) (after : List Value) (params : List String),
      targets = before ++ target :: after ∧
      before.map Value.bindableName? = params.map some ∧ params.Nodup ∧
      (target.bindableName? = none ∨ ∃ name ∈ params, target.bindableName? = some name) := by
  induction targets using List.reverseRecOn with
  | nil => exact .inl ⟨[], rfl, List.nodup_nil⟩
  | append_singleton targets target ih =>
    rcases ih with ⟨params, named, distinct⟩ | ⟨before, first, after, params, rfl, h⟩
    · cases hname : target.bindableName? with
      | none => exact .inr ⟨targets, target, [], params, rfl, named, distinct, .inl hname⟩
      | some name =>
        by_cases hseen : name ∈ params
        · exact .inr ⟨targets, target, [], params, rfl, named, distinct, .inr ⟨name, hseen, hname⟩⟩
        · refine .inl ⟨params ++ [name], by simp [named, hname], ?_⟩
          rw [List.nodup_append]
          refine ⟨distinct, by simp, ?_⟩
          rintro other hmem _ hname rfl
          exact hseen (List.mem_singleton.1 hname ▸ hmem)
    · exact .inr ⟨before, first, after ++ [target], params, by simp, h⟩

end Form
end ScopedLisp
