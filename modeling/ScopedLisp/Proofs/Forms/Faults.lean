import ScopedLisp.Proofs.Forms.Shape
import ScopedLisp.Proofs.Scopes.Lookup

/-! # Faults of forms

Every form but `let` checks its whole shape before it evaluates anything. So with operands of the wrong
shape it fails for that, and has no effect. With operands of the right shape it fails where the
evaluation of one of them fails, and for no other reason, except that an assignment fails if its name
is not bound. -/

namespace ScopedLisp

/-- Whether an outcome is an error or was given up. -/
def Outcome.IsFailure {α : Type} (o : Outcome α) : Prop :=
  ∀ result t, o ≠ .ok result t

theorem Outcome.isFailure_error {α : Type} (cause : EvalError) (t : Store) :
    (error cause t : Outcome α).IsFailure := nofun

/-- A sequence of two computations fails where the first does, or where the second does after it. -/
theorem Eval.bind_eq_iff_of_isFailure {α : Type} {x : Eval α} {next : α → Eval α} {s : Store}
    {o : Outcome α} (ho : o.IsFailure) :
    (x >>= next) s = o ↔ x s = o ∨ ∃ v t, x s = .ok v t ∧ next v t = o := by
  rw [bind_apply]
  cases x s with
  | ok v t => simp [(ho v t).symm]
  | error => simp
  | tooDeep => simp

/-- Names that can be the parameters of one closure. -/
structure AreParameters (params : List String) : Prop where
  distinct : params.Nodup
  bindable : ∀ param ∈ params, IsBindable param

/-- Targets that can be bound are the symbols of their names. -/
theorem map_bindableName?_eq_iff {targets : List Value} {params : List String} :
    targets.map Value.bindableName? = params.map some ↔
      targets = params.map .symbol ∧ ∀ param ∈ params, IsBindable param := by
  induction targets generalizing params with
  | nil =>
    cases params with
    | nil => simp
    | cons => simp
  | cons target targets ih =>
    cases params with
    | nil => simp
    | cons param params =>
      simp only [List.map_cons, List.cons.injEq, bindableName?_eq_some_iff, ih,
        List.forall_mem_cons]
      exact and_and_and_comm

theorem Value.symbol_injective : Function.Injective Value.symbol :=
  fun _ _ => Value.symbol.inj

/-- Parameters in order go on with another one in order. -/
theorem AreParameters.of_append {params before : List String} (h : AreParameters params)
    {target : Value} {after : List Value}
    (heq : params.map Value.symbol = before.map Value.symbol ++ target :: after) :
    ∃ name, target = .symbol name ∧ IsBindable name ∧ name ∉ before := by
  obtain ⟨before', rest, rfl, hbefore, hrest⟩ := List.map_eq_append_iff.1 heq
  obtain ⟨name, after', rfl, rfl, -⟩ := List.map_eq_cons_iff.1 hrest
  obtain rfl := List.map_injective_iff.2 Value.symbol_injective hbefore
  refine ⟨name, rfl, h.bindable name (by simp), fun hseen => ?_⟩
  exact (List.nodup_append.1 h.distinct).2.2 name hseen name List.mem_cons_self rfl

namespace Form

/-- What is wrong with the operands of a form that is no `let`. -/
inductive Faulty : Form → List Value → (Store → Malformation) → Prop
  | count {form : Form} {operands : List Value} (count : operands.length ≠ form.operandCount) :
      Faulty form operands fun _ => .operandCount form.operandCount operands.length
  | unbindable {form : Form} (writes : form = .define ∨ form = .assign) {target : Value}
      (unnamed : target.bindableName? = none) (expr : Value) :
      Faulty form [target, expr] fun s => .unbindable (s.text target)
  | notList {targets : Value} (shape : ∀ items, targets ≠ .list items) (body : Value) :
      Faulty .lambda [targets, body] fun _ => .parametersNotList
  | unbindableParameter {before : List String} (inOrder : AreParameters before) {target : Value}
      (unnamed : target.bindableName? = none) (after : List Value) (body : Value) :
      Faulty .lambda [.list (before.map .symbol ++ target :: after), body] fun s =>
        .unbindable (s.text target)
  | parameterTwice {before : List String} (inOrder : AreParameters before) {name : String}
      (seen : name ∈ before) (after : List Value) (body : Value) :
      Faulty .lambda [.list (before.map .symbol ++ .symbol name :: after), body] fun _ =>
        .parameterTwice name

/-! ### The shape is right, or there is a fault -/

/-- Targets of a `lambda` are parameters, or there is a first one that is not. -/
theorem shaped_or_faulty_lambda (targets : List Value) (body : Value) :
    Shaped .lambda [.list targets, body] ∨ ∃ fault, Faulty .lambda [.list targets, body] fault := by
  rcases parameters_cases targets with
    ⟨params, named, distinct⟩ | ⟨before, target, after, params, rfl, named, distinct, hbad⟩
  · obtain ⟨rfl, hbindable⟩ := map_bindableName?_eq_iff.1 named
    exact .inl (.lambda distinct hbindable body)
  · obtain ⟨rfl, hbindable⟩ := map_bindableName?_eq_iff.1 named
    rcases hbad with unnamed | ⟨name, seen, hname⟩
    · exact .inr ⟨_, .unbindableParameter ⟨distinct, hbindable⟩ unnamed after body⟩
    · obtain ⟨rfl, -⟩ := bindableName?_eq_some_iff.1 hname
      exact .inr ⟨_, .parameterTwice ⟨distinct, hbindable⟩ seen after body⟩

theorem shaped_or_faulty {form : Form} (hform : form ≠ .bind) (operands : List Value) :
    Shaped form operands ∨ ∃ fault, Faulty form operands fault := by
  by_cases count : operands.length = form.operandCount
  · cases form with
    | bind => exact absurd rfl hform
    | quote =>
      obtain ⟨datum, rfl⟩ := List.length_eq_one_iff.1 count
      exact .inl (.quote datum)
    | choose =>
      obtain ⟨test, yes, no, rfl⟩ := List.length_eq_three.1 count
      exact .inl (.choose test yes no)
    | define =>
      obtain ⟨target, expr, rfl⟩ := List.length_eq_two.1 count
      cases hname : target.bindableName? with
      | none => exact .inr ⟨_, .unbindable (.inl rfl) hname expr⟩
      | some name =>
        obtain ⟨rfl, hbindable⟩ := bindableName?_eq_some_iff.1 hname
        exact .inl (.define hbindable expr)
    | assign =>
      obtain ⟨target, expr, rfl⟩ := List.length_eq_two.1 count
      cases hname : target.bindableName? with
      | none => exact .inr ⟨_, .unbindable (.inr rfl) hname expr⟩
      | some name =>
        obtain ⟨rfl, hbindable⟩ := bindableName?_eq_some_iff.1 hname
        exact .inl (.assign hbindable expr)
    | lambda =>
      obtain ⟨targets, body, rfl⟩ := List.length_eq_two.1 count
      by_cases shape : ∃ items, targets = .list items
      · obtain ⟨items, rfl⟩ := shape
        exact shaped_or_faulty_lambda items body
      · exact .inr ⟨_, .notList (not_exists.1 shape) body⟩
  · exact .inr ⟨_, .count count⟩

theorem shaped_lambda_iff {operands : List Value} : Shaped .lambda operands ↔
    ∃ params body, AreParameters params ∧ operands = [.list (params.map .symbol), body] :=
  ⟨fun | .lambda distinct bindable body => ⟨_, body, ⟨distinct, bindable⟩, rfl⟩,
    fun ⟨_, body, h, heq⟩ => heq ▸ .lambda h.distinct h.bindable body⟩

theorem Shaped.length_eq {form : Form} {operands : List Value} (h : Shaped form operands) :
    operands.length = form.operandCount := by
  cases h <;> rfl

theorem Faulty.not_shaped {form : Form} {operands : List Value} {fault : Store → Malformation}
    (h : Faulty form operands fault) : ¬ Shaped form operands := by
  intro hshaped
  cases h with
  | count count => exact count hshaped.length_eq
  | unbindable writes unnamed =>
    cases hshaped with
    | define bindable | assign bindable => simp [bindable.bindableName?_eq] at unnamed
    | bind | lambda => simp at writes
  | notList shape =>
    obtain ⟨params, body, -, heq⟩ := shaped_lambda_iff.1 hshaped
    exact shape _ (List.cons.inj heq).1
  | unbindableParameter inOrder unnamed =>
    obtain ⟨params, body, hparams, heq⟩ := shaped_lambda_iff.1 hshaped
    have hsplit := Value.list.inj (List.cons.inj heq).1
    obtain ⟨name, rfl, hbindable, -⟩ := hparams.of_append hsplit.symm
    simp [hbindable.bindableName?_eq] at unnamed
  | parameterTwice inOrder seen =>
    obtain ⟨params, body, hparams, heq⟩ := shaped_lambda_iff.1 hshaped
    have hsplit := Value.list.inj (List.cons.inj heq).1
    obtain ⟨name, hname, -, hunseen⟩ := hparams.of_append hsplit.symm
    exact hunseen (Value.symbol.inj hname ▸ seen)

/-! ### What a fault does -/

theorem parameters_append_of_inOrder {params : List String} (h : AreParameters params)
    (rest : List Value) : parameters [] (params.map .symbol ++ rest) = parameters params rest :=
  parameters_append rest (map_bindableName?_eq_iff.2 ⟨rfl, h.bindable⟩) h.distinct

/-- Operands with a fault are refused at once: no evaluator is asked, and the store stays the same. -/
theorem apply_of_faulty {form : Form} {operands : List Value} {fault : Store → Malformation}
    (h : Faulty form operands fault) (ev : Evaluator) (a : ScopeId) (s : Store) :
    apply ev form operands a s = .error (.malformed form (fault s)) s := by
  cases h with
  | count count => rw [apply_of_length_ne ev count, Eval.fail_apply]
  | unbindable writes unnamed =>
    rcases writes with rfl | rfl <;> simp only [apply, Eval.bind_apply, nameOf_of_none _ unnamed]
  | notList shape => exact apply_lambda_of_not_list ev shape _ a s
  | unbindableParameter inOrder unnamed =>
    simp only [apply, parameters_append_of_inOrder inOrder, parameters, Eval.bind_apply,
      nameOf_of_none _ unnamed]
  | parameterTwice inOrder seen =>
    have hname := (inOrder.bindable _ seen).bindableName?_eq
    simp only [apply, parameters_append_of_inOrder inOrder, parameters, nameOf_of_some _ hname,
      pure_bind, seen, if_true, Eval.bind_apply, Eval.fail_apply]

/-! ### Where other failures come from -/

/-- `Begins ev a s form operands e t`: a form with operands of the right shape gets to evaluate `e`, one
of them, and does so in the store `t`. -/
inductive Begins (ev : Evaluator) (a : ScopeId) (s : Store) :
    Form → List Value → Value → Store → Prop
  | test (test yes no : Value) : Begins ev a s .choose [test, yes, no] test s
  | yes {test v : Value} {t : Store} (tested : ev test a s = .ok v t) (truthy : v.truthy = true)
      (yes no : Value) : Begins ev a s .choose [test, yes, no] yes t
  | no {test v : Value} {t : Store} (tested : ev test a s = .ok v t) (falsy : v.truthy = false)
      (yes no : Value) : Begins ev a s .choose [test, yes, no] no t
  | rightSide {form : Form} (writes : form = .define ∨ form = .assign) (target expr : Value) :
      Begins ev a s form [target, expr] expr s

theorem Begins.mem {ev : Evaluator} {a : ScopeId} {s t : Store} {form : Form}
    {operands : List Value} {e : Value} (h : Begins ev a s form operands e t) : e ∈ operands := by
  cases h <;> simp

/-- `Unassigned ev a s form operands o`: the one failure that a form with operands of the right shape has
on its own. The name of an assignment has no meaning in the scope, once its right side is evaluated. -/
inductive Unassigned (ev : Evaluator) (a : ScopeId) (s : Store) :
    Form → List Value → Outcome Value → Prop
  | unbound {name : String} {expr v : Value} {t : Store} (evaluated : ev expr a s = .ok v t)
      (unbound : t.get? a name = none) :
      Unassigned ev a s .assign [.symbol name, expr] (.error (.unbound name) t)

section
variable {ev : Evaluator} {a : ScopeId} {s : Store} {o : Outcome Value}

theorem choose_eq_iff (ho : o.IsFailure) (test yes no : Value) :
    apply ev .choose [test, yes, no] a s = o ↔
      ∃ e t, Begins ev a s .choose [test, yes, no] e t ∧ ev e a t = o := by
  simp only [apply]
  rw [Eval.bind_eq_iff_of_isFailure ho]
  constructor
  · rintro (htest | ⟨v, t, htest, hrest⟩)
    · exact ⟨test, s, .test .., htest⟩
    · cases htruthy : v.truthy with
      | true => exact ⟨yes, t, .yes htest htruthy .., by simpa [htruthy] using hrest⟩
      | false => exact ⟨no, t, .no htest htruthy .., by simpa [htruthy] using hrest⟩
  · rintro ⟨e, t, hbegins, he⟩
    cases hbegins with
    | test => exact .inl he
    | yes tested truthy => exact .inr ⟨_, t, tested, by simpa [truthy] using he⟩
    | no tested falsy => exact .inr ⟨_, t, tested, by simpa [falsy] using he⟩

theorem begins_rightSide_iff {form : Form} (writes : form = .define ∨ form = .assign)
    (target expr : Value) :
    (∃ e t, Begins ev a s form [target, expr] e t ∧ ev e a t = o) ↔ ev expr a s = o := by
  constructor
  · rintro ⟨e, t, hbegins, he⟩
    cases hbegins
    exact he
  · exact fun he => ⟨expr, s, .rightSide writes .., he⟩

theorem define_eq_iff (ho : o.IsFailure) {name : String} (bindable : IsBindable name)
    (expr : Value) : apply ev .define [.symbol name, expr] a s = o ↔ ev expr a s = o := by
  simp only [apply, nameOf_of_some _ bindable.bindableName?_eq, pure_bind]
  rw [Eval.bind_eq_iff_of_isFailure ho, or_iff_left]
  rintro ⟨v, t, -, hdefined⟩
  exact ho v _ hdefined.symm

theorem assign_eq_iff (ho : o.IsFailure) {name : String} (bindable : IsBindable name)
    (expr : Value) : apply ev .assign [.symbol name, expr] a s = o ↔
      ev expr a s = o ∨ Unassigned ev a s .assign [.symbol name, expr] o := by
  simp only [apply, nameOf_of_some _ bindable.bindableName?_eq, pure_bind]
  rw [Eval.bind_eq_iff_of_isFailure ho]
  refine or_congr_right ⟨?_, ?_⟩
  · rintro ⟨v, t, hexpr, hassigned⟩
    rw [Eval.bind_apply] at hassigned
    cases howner : t.owner? a name with
    | some b =>
      rw [Store.assign_of_owner? howner] at hassigned
      exact absurd hassigned.symm (ho v _)
    | none =>
      rw [Store.assign_of_no_owner howner] at hassigned
      subst hassigned
      exact .unbound hexpr (by rw [Store.get?_eq_owner?, howner, Option.bind_none])
  · rintro ⟨hexpr, hunbound⟩
    rename_i v t
    have howner : t.owner? a name = none := by
      rw [← Option.not_isSome_iff_eq_none, Option.isSome_iff_exists, ← Store.get?_isSome_iff, hunbound]
      simp
    exact ⟨v, t, hexpr, by rw [Eval.bind_apply, Store.assign_of_no_owner howner]⟩

/-- Operands of the right shape: a form that is no `let` fails as one of its operands does, or it is an
assignment to a name that is not bound. -/
theorem apply_eq_iff_of_shaped {form : Form} (hform : form ≠ .bind) {operands : List Value}
    (h : Shaped form operands) (ho : o.IsFailure) :
    apply ev form operands a s = o ↔
      (∃ e t, Begins ev a s form operands e t ∧ ev e a t = o) ∨
        Unassigned ev a s form operands o := by
  cases h with
  | bind => exact absurd rfl hform
  | quote datum =>
    refine iff_of_false (fun h => ho datum s h.symm) ?_
    rintro (⟨e, t, hbegins, -⟩ | hunbound)
    · cases hbegins
    · cases hunbound
  | choose test yes no =>
    rw [choose_eq_iff ho, or_iff_left nofun]
  | define bindable expr =>
    rw [define_eq_iff ho bindable, begins_rightSide_iff (.inl rfl), or_iff_left nofun]
  | assign bindable expr =>
    rw [assign_eq_iff ho bindable, begins_rightSide_iff (.inr rfl)]
  | lambda distinct bindable body =>
    have hparams := parameters_append_of_inOrder ⟨distinct, bindable⟩ []
    rw [List.append_nil] at hparams
    refine iff_of_false (fun h => ?_) ?_
    · simp only [apply, hparams, parameters, pure_bind] at h
      exact ho _ _ h.symm
    · rintro (⟨e, t, hbegins, -⟩ | hunbound)
      · cases hbegins with
        | rightSide writes => simp at writes
      · cases hunbound

end

/-- A form that is no `let` has operands of the right shape unless there is a fault in them. If there is
one, it fails for its shape, whatever the evaluator, and leaves the store as it was. If there is none,
it fails or is given up where the evaluation of an operand that it begins is, and otherwise fails only
as an assignment to a name that is not bound. -/
theorem apply_classified {form : Form} (hform : form ≠ .bind) (operands : List Value) :
    (¬ Shaped form operands ↔ ∃ fault, Faulty form operands fault) ∧
    (∀ fault, Faulty form operands fault → ∀ ev a s,
      apply ev form operands a s = .error (.malformed form (fault s)) s) ∧
    (Shaped form operands → ∀ ev a s o, o.IsFailure → (apply ev form operands a s = o ↔
      (∃ e ∈ operands, ∃ t, Begins ev a s form operands e t ∧ ev e a t = o) ∨
        Unassigned ev a s form operands o)) := by
  refine ⟨⟨(shaped_or_faulty hform operands).resolve_left, fun ⟨_, h⟩ => h.not_shaped⟩,
    fun fault h => apply_of_faulty h, fun h ev a s o ho => ?_⟩
  rw [apply_eq_iff_of_shaped hform h ho]
  refine or_congr_left ⟨?_, ?_⟩
  · rintro ⟨e, t, hbegins, he⟩
    exact ⟨e, hbegins.mem, t, hbegins, he⟩
  · rintro ⟨e, -, t, hbegins, he⟩
    exact ⟨e, t, hbegins, he⟩

/-- A parameter occurs twice; the branch that an `if` takes is an `if` without operands; and a name is
assigned that is not bound. -/
theorem apply_classified_of_three_forms :
    (∃ operands fault, operands = [.list [.symbol "x", .symbol "y", .symbol "x"], .symbol "x"] ∧
      Faulty .lambda operands fault ∧ ¬ Shaped .lambda operands ∧
      ∀ ev a s, apply ev .lambda operands a s =
        .error (.malformed .lambda (.parameterTwice "x")) s) ∧
    (∃ operands, operands = [.number 1, .list [.symbol "if"], .number 2] ∧
      Shaped .choose operands ∧
      apply (Evaluator.within 3) .choose operands Session.start.root Session.start.store =
        .error (.malformed .choose (.operandCount 3 0)) Session.start.store) ∧
    ∃ operands, operands = [.symbol "u", .number 1] ∧ Shaped .assign operands ∧
      apply (Evaluator.within 3) .assign operands Session.start.root Session.start.store =
        .error (.unbound "u") Session.start.store := by
  have hx : AreParameters ["x", "y"] := ⟨by decide, by simp [IsBindable]; decide⟩
  have htwice : Faulty .lambda [.list [.symbol "x", .symbol "y", .symbol "x"], .symbol "x"]
      fun _ => .parameterTwice "x" := .parameterTwice hx List.mem_cons_self [] _
  have hlambda := apply_classified (by decide : Form.lambda ≠ .bind)
    [.list [.symbol "x", .symbol "y", .symbol "x"], .symbol "x"]
  have hchoose := apply_classified (by decide : Form.choose ≠ .bind)
    [.number 1, .list [.symbol "if"], .number 2]
  have hassign := apply_classified (by decide : Form.assign ≠ .bind) [.symbol "u", .number 1]
  have hu : IsBindable "u" := by simp [IsBindable]; decide
  refine ⟨⟨_, _, rfl, htwice, hlambda.1.2 ⟨_, htwice⟩, hlambda.2.1 _ htwice⟩,
    ⟨_, rfl, .choose .., ?_⟩, _, rfl, .assign hu _, ?_⟩
  · refine (hchoose.2.2 (.choose ..) _ _ _ _ (Outcome.isFailure_error _ _)).2 (.inl ?_)
    exact ⟨.list [.symbol "if"], by simp, _, .yes rfl rfl .., rfl⟩
  · refine (hassign.2.2 (.assign hu _) _ _ _ _ (Outcome.isFailure_error _ _)).2 (.inr ?_)
    exact .unbound rfl (by decide +kernel)

end Form
end ScopedLisp
