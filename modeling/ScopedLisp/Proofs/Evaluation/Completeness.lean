import Mathlib.Order.Filter.AtTopBot.Basic
import ScopedLisp.Proofs.Evaluation.Soundness

/-! # Every derivable outcome is computed

What the rules derive, evaluation within a depth answers at all sufficiently great depths. The
premises of a rule hold at great depths together, so no depth is ever computed. With soundness this
makes the rules and the evaluator one and the same description of the language. -/

namespace ScopedLisp
open Filter Evaluator

theorem eventually_within {e : Value} {scope : ScopeId} {s : Store} {o : Outcome Value}
    (h : ∀ᶠ depth in atTop, step (within depth) e scope s = o) :
    ∀ᶠ depth in atTop, within depth e scope s = o := by
  rw [← map_add_atTop_eq_nat 1, eventually_map]
  exact h

mutual

theorem Evaluates.eventually {e : Value} {scope : ScopeId} {s t : Store}
    {r : Except EvalError Value} (h : Evaluates e scope s r t) :
    ∀ᶠ depth in atTop, within depth e scope s = .ended r t := by
  apply eventually_within
  match h with
  | .number | .boolean | .procedure | .emptyList => exact .of_forall fun _ => rfl
  | .literal literal =>
    exact .of_forall fun _ => by simp_all [step, Value.isStringLiteral]
  | .bound plain bound =>
    exact .of_forall fun _ => by simp_all [step, Value.isStringLiteral, Eval.lookup]
  | .unbound plain unbound =>
    exact .of_forall fun _ => by simp_all [step, Value.isStringLiteral, Eval.lookup]
  | .special special =>
    filter_upwards [special.eventually] with depth h
    simp [step, Value.form?, Form.ofKeyword?_keyword, h]
  | .elementFails ordinary elements =>
    filter_upwards [elements.eventually] with depth h
    simp [step_list _ ordinary, h]
  | .call ordinary elements application =>
    filter_upwards [elements.eventually, application.eventually] with depth h ha
    simp [step_list _ ordinary, h, ha]

theorem EvaluatesAll.eventually {es : List Value} {scope : ScopeId} {s t : Store}
    {r : Except EvalError (List Value)} (h : EvaluatesAll es scope s r t) :
    ∀ᶠ depth in atTop, (within depth).all scope es s = .ended r t := by
  match h with
  | .nil => exact .of_forall fun _ => rfl
  | .cons first later =>
    filter_upwards [first.eventually, later.eventually] with depth h hl
    simp [Evaluator.all, h, hl]
  | .firstFails first =>
    filter_upwards [first.eventually] with depth h
    simp [Evaluator.all, h]
  | .laterFails first later =>
    filter_upwards [first.eventually, later.eventually] with depth h hl
    simp [Evaluator.all, h, hl]

theorem BindsAll.eventually {bindings : List Value} {own : Bindings Value} {scope : ScopeId}
    {s t : Store} {r : Except EvalError (Bindings Value)} (h : BindsAll bindings own scope s r t) :
    ∀ᶠ depth in atTop, Form.bindAll (within depth) scope own bindings s = .ended r t := by
  match h with
  | .nil => exact .of_forall fun _ => rfl
  | .cons named fresh first later =>
    filter_upwards [first.eventually, later.eventually] with depth h hl
    simp [Form.bindAll, Form.nameOf_of_some _ named, fresh, h, hl]
  | .initializerFails named fresh first =>
    filter_upwards [first.eventually] with depth h
    simp [Form.bindAll, Form.nameOf_of_some _ named, fresh, h]
  | .twice named seen =>
    exact .of_forall fun _ => by
      simp [Form.bindAll, Form.nameOf_of_some _ named, seen]
  | .unbindable unnamed =>
    exact .of_forall fun _ => by
      simp [Form.bindAll, Form.nameOf_of_none _ unnamed]
  | .notPair shape =>
    exact .of_forall fun _ => Form.bindAll_of_not_pair _ _ _ shape _ _

theorem EvaluatesForm.eventually {form : Form} {operands : List Value} {scope : ScopeId}
    {s t : Store} {r : Except EvalError Value} (h : EvaluatesForm form operands scope s r t) :
    ∀ᶠ depth in atTop, form.apply (within depth) operands scope s = .ended r t := by
  match h with
  | .operandCount count =>
    exact .of_forall fun _ => by rw [Form.apply_of_length_ne _ count]; rfl
  | .quote => exact .of_forall fun _ => rfl
  | .testFails tested =>
    filter_upwards [tested.eventually] with depth h
    simp [Form.apply, h]
  | .chooseYes tested truthy chosen =>
    filter_upwards [tested.eventually, chosen.eventually] with depth h hc
    simp [Form.apply, h, hc, truthy]
  | .chooseNo tested falsy chosen =>
    filter_upwards [tested.eventually, chosen.eventually] with depth h hc
    simp [Form.apply, h, hc, falsy]
  | .unbindable writes unnamed =>
    refine .of_forall fun _ => ?_
    rcases writes with rfl | rfl <;>
      simp [Form.apply, Form.nameOf_of_none _ unnamed]
  | .rightSideFails writes named rightSide =>
    filter_upwards [rightSide.eventually] with depth h
    rcases writes with rfl | rfl <;>
      simp [Form.apply, Form.nameOf_of_some _ named, h]
  | .define named rightSide =>
    filter_upwards [rightSide.eventually] with depth h
    simp [Form.apply, Form.nameOf_of_some _ named, h]
  | .assign named rightSide written =>
    filter_upwards [rightSide.eventually] with depth h
    simp [Form.apply, Form.nameOf_of_some _ named, h, Eval.assign, written]
  | .assignUnbound named rightSide unbound =>
    filter_upwards [rightSide.eventually] with depth h
    simp [Form.apply, Form.nameOf_of_some _ named, h, Eval.assign, unbound]
  | .bindingsNotList shape =>
    exact .of_forall fun _ => Form.apply_bind_of_not_list _ shape _ _ _
  | .bindingFails bound =>
    filter_upwards [bound.eventually] with depth h
    simp [Form.apply, h]
  | .bind bound inside =>
    filter_upwards [bound.eventually, inside.eventually] with depth h hi
    simp [Form.apply, h, hi]
  | .parametersNotList shape =>
    exact .of_forall fun _ => Form.apply_lambda_of_not_list _ shape _ _ _
  | .unbindableParameter named distinct unnamed =>
    refine .of_forall fun _ => ?_
    simp [Form.apply, Form.parameters_append _ named distinct, Form.parameters,
      Form.nameOf_of_none _ unnamed]
  | .parameterTwice named distinct again seen =>
    refine .of_forall fun _ => ?_
    simp [Form.apply, Form.parameters_append _ named distinct, Form.parameters,
      Form.nameOf_of_some _ again, seen]
  | .lambda named distinct =>
    refine .of_forall fun _ => ?_
    simp [Form.apply, Form.parameters_eq_pure named distinct]

theorem Applies.eventually {operator : Value} {args : List Value} {s t : Store}
    {r : Except EvalError Value} (h : Applies operator args s r t) :
    ∀ᶠ depth in atTop, (within depth).applyFirst (operator :: args) s = .ended r t := by
  match h with
  | .notCallable shape => exact .of_forall fun _ => applyFirst_of_not_callable _ shape _
  | .builtin computed => exact .of_forall fun _ => computed
  | .argumentCount known count =>
    exact .of_forall fun _ => by
      simp [applyFirst, Procedure.apply, known, count, Store.text]
  | .closure known count inside =>
    filter_upwards [inside.eventually] with depth h
    simp [applyFirst, Procedure.apply, known, count, h]

end

/-- The rules derive one outcome at most. -/
theorem Evaluates.unique {e : Value} {scope : ScopeId} {s t t' : Store}
    {r r' : Except EvalError Value} (h : Evaluates e scope s r t) (h' : Evaluates e scope s r' t') :
    r = r' ∧ t = t' := by
  obtain ⟨_, hends, hends'⟩ := (h.eventually.and h'.eventually).exists
  exact Outcome.ended_inj.1 (hends.symm.trans hends')

end ScopedLisp
