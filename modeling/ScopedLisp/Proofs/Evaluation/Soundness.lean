import Mathlib.Data.List.Basic
import ScopedLisp.Proofs.Evaluation.Equations

/-! # Every computed outcome is derivable

One step of evaluation follows the rules if the evaluator of the parts does, so evaluation within
any depth follows them: giving up is not an outcome that the rules speak of. -/

namespace ScopedLisp

@[simp] theorem Outcome.ok_eq_ended_iff {α : Type} {value : α} {s t : Store}
    {r : Except EvalError α} : Outcome.ok value s = .ended r t ↔ r = .ok value ∧ t = s := by
  cases r <;> simp [Outcome.ended, eq_comm]

@[simp] theorem Outcome.error_eq_ended_iff {α : Type} {cause : EvalError} {s t : Store}
    {r : Except EvalError α} : Outcome.error cause s = .ended r t ↔ r = .error cause ∧ t = s := by
  cases r <;> simp [Outcome.ended, eq_comm]

@[simp] theorem Outcome.tooDeep_ne_ended {α : Type} {t : Store} {r : Except EvalError α} :
    Outcome.tooDeep ≠ .ended r t := by
  cases r <;> simp [Outcome.ended]

@[simp] theorem Outcome.ended_inj {α : Type} {r r' : Except EvalError α} {s t : Store} :
    Outcome.ended r s = .ended r' t ↔ r = r' ∧ s = t := by
  cases r <;> cases r' <;> simp

/-- A sequence of two computations ends where the second does, or where the first fails. -/
theorem Eval.bind_eq_ended_iff {α β : Type} {x : Eval α} {next : α → Eval β} {s t : Store}
    {r : Except EvalError β} :
    (x >>= next) s = .ended r t ↔
      (∃ value u, x s = .ok value u ∧ next value u = .ended r t) ∨
        ∃ cause, x s = .error cause t ∧ r = .error cause := by
  rw [bind_apply]
  cases x s with
  | ok value u => simp
  | error cause u =>
    simp only [Outcome.error_eq_ended_iff, reduceCtorEq, false_and, exists_false, false_or,
      Outcome.error.injEq]
    constructor
    · rintro ⟨rfl, rfl⟩
      exact ⟨cause, ⟨rfl, rfl⟩, rfl⟩
    · rintro ⟨_, ⟨rfl, rfl⟩, rfl⟩
      exact ⟨rfl, rfl⟩
  | tooDeep => simp

/-- An evaluator that follows the rules whenever it ends. -/
def Evaluator.Sound (ev : Evaluator) : Prop :=
  ∀ {e scope s r t}, ev e scope s = .ended r t → Evaluates e scope s r t

namespace Evaluator.Sound
variable {ev : Evaluator} {scope : ScopeId} {s t : Store}

theorem all (hev : ev.Sound) {es : List Value} {r : Except EvalError (List Value)}
    (h : ev.all scope es s = .ended r t) : EvaluatesAll es scope s r t := by
  induction es generalizing s r with
  | nil =>
    obtain ⟨rfl, rfl⟩ := Outcome.ok_eq_ended_iff.1 h
    exact .nil
  | cons e es ih =>
    rcases Eval.bind_eq_ended_iff.1 h with ⟨value, u, hfirst, h⟩ | ⟨cause, hfirst, rfl⟩
    · rcases Eval.bind_eq_ended_iff.1 h with ⟨values, w, hlater, h⟩ | ⟨cause, hlater, rfl⟩
      · obtain ⟨rfl, rfl⟩ := Outcome.ok_eq_ended_iff.1 h
        exact .cons (hev hfirst) (ih hlater)
      · exact .laterFails (hev hfirst) (ih hlater)
    · exact .firstFails (hev hfirst)

theorem bindAll (hev : ev.Sound) {bindings : List Value} {own : Bindings Value}
    {r : Except EvalError (Bindings Value)}
    (h : Form.bindAll ev scope own bindings s = .ended r t) :
    BindsAll bindings own scope s r t := by
  induction bindings generalizing own s with
  | nil =>
    obtain ⟨rfl, rfl⟩ := Outcome.ok_eq_ended_iff.1 h
    exact .nil
  | cons binding rest ih =>
    by_cases shape : ∃ target initializer, binding = .list [target, initializer]
    · obtain ⟨target, initializer, rfl⟩ := shape
      cases hname : target.bindableName? with
      | none =>
        simp only [Form.bindAll, Eval.bind_apply, Form.nameOf_of_none _ hname,
          Outcome.error_eq_ended_iff] at h
        obtain ⟨rfl, rfl⟩ := h
        exact .unbindable hname
      | some name =>
        cases hseen : own.contains name with
        | true =>
          simp only [Form.bindAll, Form.nameOf_of_some _ hname, pure_bind, hseen, if_true,
            Eval.fail_apply, Outcome.error_eq_ended_iff] at h
          obtain ⟨rfl, rfl⟩ := h
          exact .twice hname hseen
        | false =>
          simp only [Form.bindAll, Form.nameOf_of_some _ hname, pure_bind, hseen,
            Bool.false_eq_true, if_false] at h
          rcases Eval.bind_eq_ended_iff.1 h with ⟨value, u, hfirst, h⟩ | ⟨cause, hfirst, rfl⟩
          · exact .cons hname hseen (hev hfirst) (ih h)
          · exact .initializerFails hname hseen (hev hfirst)
    · have shape : ∀ target initializer, binding ≠ .list [target, initializer] :=
        fun target initializer heq => shape ⟨target, initializer, heq⟩
      rw [Form.bindAll_of_not_pair _ _ _ shape, Outcome.error_eq_ended_iff] at h
      obtain ⟨rfl, rfl⟩ := h
      exact .notPair shape

theorem choose (hev : ev.Sound) {test yes no : Value} {r : Except EvalError Value}
    (h : Form.apply ev .choose [test, yes, no] scope s = .ended r t) :
    EvaluatesForm .choose [test, yes, no] scope s r t := by
  rcases Eval.bind_eq_ended_iff.1 h with ⟨value, u, htest, h⟩ | ⟨cause, htest, rfl⟩
  · cases htruthy : value.truthy with
    | true => exact .chooseYes (hev htest) htruthy (hev (by simpa [htruthy] using h))
    | false => exact .chooseNo (hev htest) htruthy (hev (by simpa [htruthy] using h))
  · exact .testFails (hev htest)

/-- A form that writes a name fails before the write, by a rule of its own, or arrives there. -/
theorem write (hev : ev.Sound) {form : Form} (writes : form = .define ∨ form = .assign)
    {target expr : Value} {write : String → Value → Eval Value} {r : Except EvalError Value}
    (h : (do
      let name ← form.nameOf target
      let value ← ev expr scope
      write name value) s = .ended r t) :
    EvaluatesForm form [target, expr] scope s r t ∨
      ∃ name value u, target.bindableName? = some name ∧ Evaluates expr scope s (.ok value) u ∧
        write name value u = .ended r t := by
  cases hname : target.bindableName? with
  | none =>
    simp only [Eval.bind_apply, Form.nameOf_of_none _ hname, Outcome.error_eq_ended_iff] at h
    obtain ⟨rfl, rfl⟩ := h
    exact .inl (.unbindable writes hname)
  | some name =>
    rw [Form.nameOf_of_some _ hname, pure_bind] at h
    rcases Eval.bind_eq_ended_iff.1 h with ⟨value, u, hright, h⟩ | ⟨cause, hright, rfl⟩
    · exact .inr ⟨name, value, u, rfl, hev hright, h⟩
    · exact .inl (.rightSideFails writes hname (hev hright))

theorem define (hev : ev.Sound) {target expr : Value} {r : Except EvalError Value}
    (h : Form.apply ev .define [target, expr] scope s = .ended r t) :
    EvaluatesForm .define [target, expr] scope s r t := by
  rcases hev.write (.inl rfl) h with h | ⟨name, value, u, hname, hright, h⟩
  · exact h
  · obtain ⟨rfl, rfl⟩ := Outcome.ok_eq_ended_iff.1 h
    exact .define hname hright

theorem assign (hev : ev.Sound) {target expr : Value} {r : Except EvalError Value}
    (h : Form.apply ev .assign [target, expr] scope s = .ended r t) :
    EvaluatesForm .assign [target, expr] scope s r t := by
  rcases hev.write (.inr rfl) h with h | ⟨name, value, u, hname, hright, h⟩
  · exact h
  · cases hset : u.set? scope name value with
    | none =>
      obtain ⟨rfl, rfl⟩ : r = .error (.unbound name) ∧ t = u := by
        simpa [Eval.assign, hset] using h
      exact .assignUnbound hname hright hset
    | some w =>
      obtain ⟨rfl, rfl⟩ : r = .ok value ∧ t = w := by simpa [Eval.assign, hset] using h
      exact .assign hname hright hset

theorem bind (hev : ev.Sound) {bindings body : Value} {r : Except EvalError Value}
    (h : Form.apply ev .bind [bindings, body] scope s = .ended r t) :
    EvaluatesForm .bind [bindings, body] scope s r t := by
  by_cases shape : ∃ items, bindings = .list items
  · obtain ⟨items, rfl⟩ := shape
    rcases Eval.bind_eq_ended_iff.1 h with ⟨own, u, hbound, h⟩ | ⟨cause, hbound, rfl⟩
    · exact .bind (hev.bindAll hbound) (hev h)
    · exact .bindingFails (hev.bindAll hbound)
  · have shape : ∀ items, bindings ≠ .list items := fun items heq => shape ⟨items, heq⟩
    rw [Form.apply_bind_of_not_list _ shape, Outcome.error_eq_ended_iff] at h
    obtain ⟨rfl, rfl⟩ := h
    exact .bindingsNotList shape

end Evaluator.Sound

theorem EvaluatesForm.of_lambda {ev : Evaluator} {targets body : Value} {scope : ScopeId}
    {s t : Store} {r : Except EvalError Value}
    (h : Form.apply ev .lambda [targets, body] scope s = .ended r t) :
    EvaluatesForm .lambda [targets, body] scope s r t := by
  by_cases shape : ∃ items, targets = .list items
  · obtain ⟨items, rfl⟩ := shape
    rcases Form.parameters_cases items with ⟨params, named, distinct⟩ |
      ⟨before, target, after, params, rfl, named, distinct, unnamed | ⟨name, seen, again⟩⟩
    · simp only [Form.apply, Form.parameters_eq_pure named distinct] at h
      obtain ⟨rfl, rfl⟩ := Outcome.ok_eq_ended_iff.1 h
      exact .lambda named distinct
    · obtain ⟨rfl, rfl⟩ :
          r = .error (.malformed .lambda (.unbindable (s.text target))) ∧ t = s := by
        simpa [Form.apply, Form.parameters_append _ named distinct, Form.parameters,
          Form.nameOf_of_none _ unnamed] using h
      exact .unbindableParameter named distinct unnamed
    · obtain ⟨rfl, rfl⟩ : r = .error (.malformed .lambda (.parameterTwice name)) ∧ t = s := by
        simpa [Form.apply, Form.parameters_append _ named distinct, Form.parameters,
          Form.nameOf_of_some _ again, seen] using h
      exact .parameterTwice named distinct again seen
  · have shape : ∀ items, targets ≠ .list items := fun items heq => shape ⟨items, heq⟩
    rw [Form.apply_lambda_of_not_list _ shape, Outcome.error_eq_ended_iff] at h
    obtain ⟨rfl, rfl⟩ := h
    exact .parametersNotList shape

namespace Evaluator.Sound
variable {ev : Evaluator} {scope : ScopeId} {s t : Store} {r : Except EvalError Value}

theorem form (hev : ev.Sound) {form : Form} {operands : List Value}
    (h : form.apply ev operands scope s = .ended r t) :
    EvaluatesForm form operands scope s r t := by
  by_cases count : operands.length = form.operandCount
  · cases form with
    | quote =>
      obtain ⟨datum, rfl⟩ := List.length_eq_one_iff.1 count
      obtain ⟨rfl, rfl⟩ := Outcome.ok_eq_ended_iff.1 h
      exact .quote
    | choose =>
      obtain ⟨test, yes, no, rfl⟩ := List.length_eq_three.1 count
      exact hev.choose h
    | define =>
      obtain ⟨target, expr, rfl⟩ := List.length_eq_two.1 count
      exact hev.define h
    | assign =>
      obtain ⟨target, expr, rfl⟩ := List.length_eq_two.1 count
      exact hev.assign h
    | bind =>
      obtain ⟨bindings, body, rfl⟩ := List.length_eq_two.1 count
      exact hev.bind h
    | lambda =>
      obtain ⟨targets, body, rfl⟩ := List.length_eq_two.1 count
      exact .of_lambda h
  · rw [Form.apply_of_length_ne _ count, Eval.fail_apply, Outcome.error_eq_ended_iff] at h
    obtain ⟨rfl, rfl⟩ := h
    exact .operandCount count

theorem applyFirst (hev : ev.Sound) {operator : Value} {args : List Value}
    (h : ev.applyFirst (operator :: args) s = .ended r t) : Applies operator args s r t := by
  by_cases callable : s.IsCallable operator
  · cases operator with
    | procedure p =>
      cases p with
      | builtin name operation => exact .builtin h
      | closure id =>
        obtain ⟨closure, known⟩ := Option.isSome_iff_exists.1 callable
        by_cases count : args.length = closure.params.length
        · refine .closure known count (hev ?_)
          simpa [Evaluator.applyFirst, Procedure.apply, known, count] using h
        · obtain ⟨rfl, rfl⟩ : r = .error (.arity (s.procedureText (.closure id))
              (.exactly closure.params.length) args.length) ∧ t = s := by
            simpa [Evaluator.applyFirst, Procedure.apply, known, count, Store.text] using h
          exact .argumentCount known count
    | _ => exact absurd callable id
  · rw [applyFirst_of_not_callable _ callable, Outcome.error_eq_ended_iff] at h
    obtain ⟨rfl, rfl⟩ := h
    exact .notCallable callable

theorem list (hev : ev.Sound) {items : List Value}
    (h : Evaluator.step ev (.list items) scope s = .ended r t) :
    Evaluates (.list items) scope s r t := by
  cases items with
  | nil =>
    obtain ⟨rfl, rfl⟩ := Outcome.ok_eq_ended_iff.1 h
    exact .emptyList
  | cons head operands =>
    cases hhead : head.form? with
    | some form =>
      obtain rfl := (Value.form?_eq_some_iff head form).1 hhead
      exact .special (hev.form (by simpa [Evaluator.step, hhead] using h))
    | none =>
      have ordinary := (Value.form?_eq_none_iff head).1 hhead
      rw [step_list _ ordinary] at h
      rcases Eval.bind_eq_ended_iff.1 h with ⟨values, u, helements, h⟩ | ⟨cause, helements, rfl⟩
      · cases hev.all (r := .ok values) helements with
        | cons first later =>
          exact .call ordinary (.cons first later) (hev.applyFirst h)
      · exact .elementFails ordinary (hev.all helements)

theorem symbol {name : String} (h : Evaluator.step ev (.symbol name) scope s = .ended r t) :
    Evaluates (.symbol name) scope s r t := by
  cases hliteral : Value.isQuotedName name with
  | true =>
    obtain ⟨rfl, rfl⟩ : r = .ok (.symbol name) ∧ t = s := by
      simpa [Evaluator.step, hliteral] using h
    exact .literal hliteral
  | false =>
    cases hbound : s.get? scope name with
    | some value =>
      obtain ⟨rfl, rfl⟩ : r = .ok value ∧ t = s := by
        simpa [Evaluator.step, hliteral, Eval.lookup, hbound] using h
      exact .bound hliteral hbound
    | none =>
      obtain ⟨rfl, rfl⟩ : r = .error (.unbound name) ∧ t = s := by
        simpa [Evaluator.step, hliteral, Eval.lookup, hbound] using h
      exact .unbound hliteral hbound

protected theorem step (hev : ev.Sound) : (Evaluator.step ev).Sound := by
  intro e scope s r t h
  cases e with
  | symbol name => exact symbol h
  | list items => exact hev.list h
  | number | boolean | procedure =>
    obtain ⟨rfl, rfl⟩ := Outcome.ok_eq_ended_iff.1 h
    constructor

end Evaluator.Sound

theorem Evaluator.within_sound (depth : Nat) : (within depth).Sound := by
  induction depth with
  | zero => exact fun h => absurd h Outcome.tooDeep_ne_ended
  | succ depth ih => exact ih.step

end ScopedLisp
