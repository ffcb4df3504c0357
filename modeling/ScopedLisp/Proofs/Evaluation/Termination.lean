import ScopedLisp.Proofs.Evaluation.Completeness
import ScopedLisp.Proofs.Scopes.Reachable
import ScopedLisp.Proofs.Scopes.Region

/-! # Termination without closures

Evaluation opens one more evaluation for a part of the code, or for the body of a closure. Where no
closure is reached from a scope, and code neither contains one nor makes one, none ever gets there:
what is looked up, written, bound or answered is free of closures all the time. So only parts of the
code are evaluated, and it is nested no more deeply than the code is. -/

namespace ScopedLisp

namespace Value

mutual

/-- How deeply the lists of a value are nested; an atom and the empty list count one. -/
def nesting : Value → Nat
  | .list items => nestingOfItems items + 1
  | .number _ | .boolean _ | .symbol _ | .procedure _ => 1

/-- The greatest nesting of some values. -/
def nestingOfItems : List Value → Nat
  | [] => 0
  | item :: rest => max item.nesting (nestingOfItems rest)

end

theorem nesting_le_of_mem {item : Value} {items : List Value} (hitem : item ∈ items) :
    item.nesting ≤ nestingOfItems items := by
  induction items with
  | nil => cases hitem
  | cons first rest ih =>
    rw [nestingOfItems]
    rcases List.mem_cons.1 hitem with rfl | hitem
    · exact Nat.le_max_left ..
    · exact Nat.le_trans (ih hitem) (Nat.le_max_right ..)

theorem nesting_pos (e : Value) : 0 < e.nesting := by
  cases e <;> simp [nesting]

/-- Whether no closure occurs in a value. -/
def IsClosureFree (v : Value) : Prop :=
  ∀ c, Value.procedure (.closure c) ∉ v

theorem isClosureFree_number (x : Float) : (number x).IsClosureFree := by
  simp [IsClosureFree]

theorem isClosureFree_boolean (b : Bool) : (boolean b).IsClosureFree := by
  simp [IsClosureFree]

theorem isClosureFree_list_iff {items : List Value} :
    (list items).IsClosureFree ↔ ∀ item ∈ items, item.IsClosureFree :=
  forall_closure_mem_list_iff

/-- Code that contains no closure and makes none, nested no more deeply than some depth. -/
structure IsFirstOrder (e : Value) (depth : Nat) : Prop where
  closureFree : e.IsClosureFree
  lambda : symbol (Form.keyword .lambda) ∉ e
  nesting : e.nesting ≤ depth

namespace IsFirstOrder
variable {e : Value} {depth : Nat}

theorem item {items : List Value} (h : (list items).IsFirstOrder (depth + 1)) {item : Value}
    (hitem : item ∈ items) : item.IsFirstOrder depth where
  closureFree := isClosureFree_list_iff.1 h.closureFree item hitem
  lambda hmem := h.lambda (mem_list_of_mem hitem hmem)
  nesting := Nat.le_trans (nesting_le_of_mem hitem) (Nat.le_of_succ_le_succ h.nesting)

theorem deeper (h : e.IsFirstOrder depth) : e.IsFirstOrder (depth + 1) :=
  ⟨h.closureFree, h.lambda, Nat.le_succ_of_le h.nesting⟩

/-- What stands in a list as a part of code is such code as well. -/
theorem part {items : List Value} (h : (list items).IsFirstOrder depth) {item : Value}
    (hitem : item ∈ items) : item.IsFirstOrder depth := by
  cases depth with
  | zero => exact absurd h.nesting (Nat.not_le.2 (nesting_pos _))
  | succ depth => exact (h.item hitem).deeper

end IsFirstOrder
end Value

/-- Whether no closure is reached from a scope. -/
def Store.ReachesNoClosure (s : Store) (a : ScopeId) : Prop :=
  ∀ c, ¬ Place.Reached s.Refers (· = .scope a) (.closure c)

/-- Whether no closure is bound. -/
def Bindings.IsClosureFree (own : Bindings Value) : Prop :=
  ∀ name v, own.get? name = some v → v.IsClosureFree

theorem Bindings.isClosureFree_empty : (empty : Bindings Value).IsClosureFree := by
  intro name v h
  simp at h

theorem Bindings.IsClosureFree.insert {own : Bindings Value} (h : own.IsClosureFree) {v : Value}
    (hv : v.IsClosureFree) (name : String) : (own.insert name v).IsClosureFree := by
  intro key u hu
  rw [get?_insert] at hu
  split at hu
  · exact Option.some.inj hu ▸ hv
  · exact h key u hu

/-- A store with some of its scopes, and those around them, where no closure is bound. -/
structure ClosureFreeRegion where
  store : Store
  region : ScopeId → Prop
  parent : ∀ {a p}, region a → store.parent? a = some p → region p
  bound : ∀ {a name v}, region a → store.own? a name = some v → v.IsClosureFree

namespace ClosureFreeRegion
variable {w : ClosureFreeRegion} {a : ScopeId} {name : String} {v : Value}

/-- A later region includes the earlier one. -/
instance : Preorder ClosureFreeRegion where
  le w w' := ∀ a, w.region a → w'.region a
  le_refl _ _ := id
  le_trans _ _ _ h h' a := h' a ∘ h a

/-- A binding is written. -/
def define (w : ClosureFreeRegion) (a : ScopeId) (name : String) (hv : v.IsClosureFree) :
    ClosureFreeRegion where
  store := w.store.define a name v
  region := w.region
  parent ha hp := w.parent ha (by rwa [Store.parent?_define] at hp)
  bound hb hown := by
    rw [Store.own?_define] at hown
    split at hown
    · exact Option.some.inj hown ▸ hv
    · exact w.bound hb hown

/-- A scope of the region gets a new one inside. -/
def addScope (w : ClosureFreeRegion) (ha : w.region a) {own : Bindings Value}
    (hown : own.IsClosureFree) : ClosureFreeRegion where
  store := (w.store.addScope (some a) own).2
  region b := w.region b ∨ b = (w.store.addScope (some a) own).1
  parent {b p} hb hp := by
    rw [Store.parent?_addScope] at hp
    split at hp
    · exact .inl (Option.some.inj hp ▸ ha)
    · next hnew => exact .inl (w.parent (hb.resolve_right hnew) hp)
  bound {b name v} hb hv := by
    rw [Store.own?_addScope] at hv
    split at hv
    · exact hown name v hv
    · next hnew => exact w.bound (hb.resolve_right hnew) hv

/-- What a name means in the region is free of closures. -/
theorem isClosureFree_of_get? (ha : w.region a) (hget : w.store.get? a name = some v) :
    v.IsClosureFree := by
  obtain ⟨b, hb, hown⟩ := List.exists_of_findSome?_eq_some hget
  have hregion := Store.forall_mem_chain ha fun _ _ hp _ hb => w.parent hb hp
  exact w.bound (hregion b hb) hown

/-- What is reached from the region, which is nothing but its scopes. -/
def Holds (w : ClosureFreeRegion) : Place → Prop
  | .scope b => w.region b
  | .closure _ => False

theorem reachesNoClosure (ha : w.region a) : w.store.ReachesNoClosure a := by
  intro c h
  refine h.induction (P := w.Holds) (fun _ hx => hx ▸ ha) fun x y hx hxy => ?_
  cases hxy with
  | body => exact hx
  | link hxy =>
    cases hxy with
    | parent outer => exact w.parent hx outer
    | bound own mem => exact w.bound hx own _ mem
    | captured => exact hx.elim

/-- The scopes that are reached from a scope from which no closure is. -/
def ofScope {s : Store} (hfree : s.ReachesNoClosure a) : ClosureFreeRegion where
  store := s
  region b := Place.Reached s.Refers (· = .scope a) (.scope b)
  parent hb hp := hb.tail (.link (.parent hp))
  bound hb hown c hc := hfree c (hb.tail (.link (.bound hown hc)))

/-! ### Computations that end -/

variable {α β : Type} {x : Eval α} {P : ClosureFreeRegion → α → Prop}

/-- A computation ends in a later region: with a result that is as it should be, or with an error. -/
inductive Ends (w : ClosureFreeRegion) (x : Eval α) (P : ClosureFreeRegion → α → Prop) : Prop
  | ok {result} (w' : ClosureFreeRegion) (later : w ≤ w')
      (ends : x w.store = .ok result w'.store) (holds : P w' result)
  | error {cause} (w' : ClosureFreeRegion) (later : w ≤ w')
      (ends : x w.store = .error cause w'.store)

namespace Ends

theorem pure {result : α} (h : P w result) : w.Ends (pure result) P := .ok w le_rfl rfl h

theorem fail (cause : EvalError) : w.Ends (Eval.fail cause) P := .error w le_rfl rfl

/-- A sequence of two computations ends if the second does after all ends of the first. -/
theorem bind {next : α → Eval β} {Q : ClosureFreeRegion → β → Prop} (h : w.Ends x P)
    (hnext : ∀ {w' result}, w ≤ w' → P w' result → w'.Ends (next result) Q) :
    w.Ends (x >>= next) Q := by
  cases h with
  | ok w' later ends holds =>
    cases hnext later holds with
    | ok u later' ends' holds' =>
      exact .ok u (le_trans later later') (by rw [Eval.bind_apply, ends]; exact ends') holds'
    | error u later' ends' =>
      exact .error u (le_trans later later') (by rw [Eval.bind_apply, ends]; exact ends')
  | error w' later ends => exact .error w' later (by rw [Eval.bind_apply, ends])

theorem exists_ended (h : w.Ends x P) :
    ∃ r w', w ≤ w' ∧ x w.store = .ended r w'.store ∧ ∀ v, r = .ok v → P w' v := by
  cases h with
  | ok w' later ends holds =>
    exact ⟨.ok _, w', later, ends, fun v hv => Except.ok.inj hv ▸ holds⟩
  | error w' later ends => exact ⟨.error _, w', later, ends, nofun⟩

end Ends

/-! ### The primitives -/

theorem ends_lookup (ha : w.region a) :
    w.Ends (Eval.lookup a name) fun _ v => v.IsClosureFree := by
  cases hget : w.store.get? a name with
  | some v => exact .ok w le_rfl (by rw [Eval.lookup, hget]) (isClosureFree_of_get? ha hget)
  | none => exact .error w le_rfl (by rw [Eval.lookup, hget])

theorem ends_define (hv : v.IsClosureFree) :
    w.Ends (Eval.define a name v) fun _ _ => True :=
  .ok (w.define a name hv) (fun _ => id) rfl trivial

theorem ends_assign (hv : v.IsClosureFree) :
    w.Ends (Eval.assign a name v) fun _ _ => True := by
  cases howner : w.store.owner? a name with
  | some owner =>
    have hends : Eval.assign a name v w.store = .ok () (w.define owner name hv).store := by
      rw [Eval.assign, Store.set?, howner]
      rfl
    exact .ok (w.define owner name hv) (fun _ => id) hends trivial
  | none => exact .error w le_rfl (by rw [Eval.assign, Store.set?, howner]; rfl)

theorem ends_newScope (ha : w.region a) {own : Bindings Value}
    (hown : own.IsClosureFree) :
    w.Ends (Eval.newScope (some a) own) fun w' inner => w'.region inner :=
  .ok (w.addScope ha hown) (fun _ => .inl) rfl (.inr rfl)

theorem ends_nameOf (form : Form) (target : Value) :
    w.Ends (form.nameOf target) fun _ _ => True := by
  cases hname : target.bindableName? with
  | some name =>
    rw [Form.nameOf_of_some form hname]
    exact .pure trivial
  | none => exact .error w le_rfl (Form.nameOf_of_none form hname _)

theorem ends_numbers (args : List Value) :
    w.Ends (Operation.numbers name args) fun _ _ => True := by
  induction args with
  | nil => exact .pure trivial
  | cons arg args ih =>
    cases arg with
    | number => exact ih.bind fun _ _ => .pure trivial
    | _ => exact .error w le_rfl rfl

/-- A builtin ends, and answers no closure that it is not given. -/
theorem ends_operation (operation : Operation) {args : List Value}
    (hargs : ∀ arg ∈ args, arg.IsClosureFree) :
    w.Ends (operation.apply name args) fun _ v => v.IsClosureFree := by
  cases operation with
  | fold operator =>
    refine (ends_numbers args).bind fun {_ xs} _ _ => ?_
    cases xs with
    | nil => exact .fail _
    | cons => exact .pure (Value.isClosureFree_number _)
  | compare relation =>
    rw [Operation.apply]
    split
    · refine (ends_numbers args).bind fun {_ xs} _ _ => ?_
      rcases xs with - | ⟨x, - | ⟨y, - | ⟨z, rest⟩⟩⟩
      · exact .fail _
      · exact .fail _
      · exact .pure (Value.isClosureFree_boolean _)
      · exact .fail _
    · exact .fail _
  | gather => exact .pure (Value.isClosureFree_list_iff.2 hargs)

end ClosureFreeRegion

/-! ### Evaluation -/

/-- Whether an evaluator ends on code of some depth that makes no closure, where no closure is bound,
and answers none. -/
def Evaluator.IsTotal (ev : Evaluator) (depth : Nat) : Prop :=
  ∀ {w : ClosureFreeRegion} {e a}, w.region a → e.IsFirstOrder depth →
    w.Ends (ev e a) fun _ v => v.IsClosureFree

namespace Evaluator.IsTotal
variable {ev : Evaluator} {depth : Nat} {w : ClosureFreeRegion} {a : ScopeId}

theorem all (hev : ev.IsTotal depth) (ha : w.region a) {es : List Value}
    (hes : ∀ e ∈ es, e.IsFirstOrder depth) :
    w.Ends (ev.all a es) fun _ vs => ∀ v ∈ vs, v.IsClosureFree := by
  induction es generalizing w with
  | nil => exact .pure nofun
  | cons e es ih =>
    obtain ⟨he, hes⟩ := List.forall_mem_cons.1 hes
    refine (hev ha he).bind fun hw hv => (ih (hw _ ha) hes).bind fun _ hvs => ?_
    exact .pure (List.forall_mem_cons.2 ⟨hv, hvs⟩)

theorem bindAll (hev : ev.IsTotal depth) (ha : w.region a) {bindings : List Value}
    (hbindings : ∀ binding ∈ bindings, binding.IsFirstOrder depth) {own : Bindings Value}
    (hown : own.IsClosureFree) :
    w.Ends (Form.bindAll ev a own bindings) fun _ own => own.IsClosureFree := by
  induction bindings generalizing w own with
  | nil => exact .pure hown
  | cons binding bindings ih =>
    obtain ⟨hbinding, hrest⟩ := List.forall_mem_cons.1 hbindings
    by_cases shape : ∃ target initializer, binding = .list [target, initializer]
    · obtain ⟨target, initializer, rfl⟩ := shape
      rw [Form.bindAll]
      refine (ClosureFreeRegion.ends_nameOf .bind target).bind fun {_ name} hw _ => ?_
      split
      · exact .fail _
      · have hinitializer : initializer.IsFirstOrder depth := hbinding.part (by simp)
        refine (hev (hw _ ha) hinitializer).bind fun hw' hv => ?_
        exact ih (hw' _ (hw _ ha)) hrest (hown.insert hv name)
    · have shape : ∀ target initializer, binding ≠ .list [target, initializer] := by
        simpa using shape
      exact .error w le_rfl (Form.bindAll_of_not_pair ev a own shape bindings _)

/-- A form that writes a name ends if the write does. -/
theorem write (hev : ev.IsTotal depth) (ha : w.region a) {form : Form} {target expr : Value}
    (hexpr : expr.IsFirstOrder depth) {write : String → Value → Eval Unit}
    (hwrite : ∀ {w : ClosureFreeRegion} {name v}, v.IsClosureFree →
      w.Ends (write name v) fun _ _ => True) :
    w.Ends (do
      let name ← form.nameOf target
      let value ← ev expr a
      write name value
      return value) fun _ v => v.IsClosureFree :=
  (ClosureFreeRegion.ends_nameOf form target).bind fun hw _ =>
    (hev (hw _ ha) hexpr).bind fun _ hv => (hwrite hv).bind fun _ _ => .pure hv

theorem form (hev : ev.IsTotal depth) (ha : w.region a) {form : Form} (hform : form ≠ .lambda)
    {operands : List Value} (hoperands : ∀ operand ∈ operands, operand.IsFirstOrder depth) :
    w.Ends (form.apply ev operands a) fun _ v => v.IsClosureFree := by
  by_cases count : operands.length = form.operandCount
  · cases form with
    | quote =>
      obtain ⟨datum, rfl⟩ := List.length_eq_one_iff.1 count
      exact .pure (hoperands datum (by simp)).closureFree
    | choose =>
      obtain ⟨test, yes, no, rfl⟩ := List.length_eq_three.1 count
      refine (hev ha (hoperands test (by simp))).bind fun {_ value} hw _ => ?_
      split
      · exact hev (hw _ ha) (hoperands yes (by simp))
      · exact hev (hw _ ha) (hoperands no (by simp))
    | define =>
      obtain ⟨target, expr, rfl⟩ := List.length_eq_two.1 count
      exact hev.write ha (hoperands expr (by simp)) ClosureFreeRegion.ends_define
    | assign =>
      obtain ⟨target, expr, rfl⟩ := List.length_eq_two.1 count
      exact hev.write ha (hoperands expr (by simp)) ClosureFreeRegion.ends_assign
    | bind =>
      obtain ⟨bindings, body, rfl⟩ := List.length_eq_two.1 count
      have hbody : body.IsFirstOrder depth := hoperands body (by simp)
      by_cases shape : ∃ items, bindings = .list items
      · obtain ⟨items, rfl⟩ := shape
        have hitems : ∀ item ∈ items, item.IsFirstOrder depth := fun _ =>
          (hoperands (.list items) (by simp)).part
        refine (hev.bindAll ha hitems Bindings.isClosureFree_empty).bind fun hw hown => ?_
        refine (ClosureFreeRegion.ends_newScope (hw _ ha) hown).bind fun _ hinner => ?_
        exact hev hinner hbody
      · exact .error w le_rfl (Form.apply_bind_of_not_list ev (not_exists.1 shape) body a _)
    | lambda => exact absurd rfl hform
  · rw [Form.apply_of_length_ne ev count]
    exact .fail _

theorem applyFirst {values : List Value} (hvalues : ∀ v ∈ values, v.IsClosureFree) :
    w.Ends (ev.applyFirst values) fun _ v => v.IsClosureFree := by
  cases values with
  | nil => exact .pure (Value.isClosureFree_list_iff.2 nofun)
  | cons operator args =>
    obtain ⟨hoperator, hargs⟩ := List.forall_mem_cons.1 hvalues
    cases operator with
    | procedure p =>
      cases p with
      | builtin name operation => exact ClosureFreeRegion.ends_operation operation hargs
      | closure c => exact absurd (Value.mem_self _) (hoperator c)
    | _ => exact .error w le_rfl rfl

/-- One more evaluation deals with code that is nested by one more. -/
theorem step (hev : ev.IsTotal depth) : (step ev).IsTotal (depth + 1) := by
  intro w e a ha he
  cases e with
  | number | boolean | procedure => exact .pure he.closureFree
  | symbol name =>
    rw [Evaluator.step]
    split
    · exact .pure he.closureFree
    · exact ClosureFreeRegion.ends_lookup ha
  | list items =>
    rcases items with - | ⟨head, operands⟩
    · exact .pure he.closureFree
    -- nothing but items of the list is evaluated, and they are nested by one less
    have hitems : ∀ item ∈ head :: operands, item.IsFirstOrder depth := fun _ => he.item
    cases hhead : head.form? with
    | some form =>
      obtain rfl := (Value.form?_eq_some_iff head form).1 hhead
      have hform : form ≠ .lambda := by
        rintro rfl
        exact (hitems _ List.mem_cons_self).lambda (Value.mem_self _)
      simp only [Evaluator.step, hhead]
      exact hev.form ha hform (List.forall_mem_cons.1 hitems).2
    | none =>
      rw [step_list ev ((Value.form?_eq_none_iff head).1 hhead)]
      exact (hev.all ha hitems).bind fun _ => applyFirst

end Evaluator.IsTotal

theorem Evaluator.isTotal_within (depth : Nat) : (within depth).IsTotal depth := by
  induction depth with
  | zero => exact fun _ he => absurd he.nesting (Nat.not_le.2 (Value.nesting_pos _))
  | succ depth ih => exact ih.step

/-- Where no closure is reached from a scope, code that contains no closure and makes none ends, with
no more evaluations open at once than it is nested deeply. Whatever it ends with, it answers no closure
and no closure is reached from the scope. -/
theorem within_nesting_of_no_closures {s : Store} {a : ScopeId}
    (hfree : s.ReachesNoClosure a) {e : Value} (hclosure : e.IsClosureFree)
    (hlambda : Value.symbol (Form.keyword .lambda) ∉ e) :
    ∃ r t, (∀ depth ≥ e.nesting, Evaluator.within depth e a s = .ended r t) ∧
      (∀ v, r = .ok v → v.IsClosureFree) ∧ t.ReachesNoClosure a := by
  have hends (depth : Nat) (hdepth : depth ≥ e.nesting) :=
    (Evaluator.isTotal_within depth (w := .ofScope hfree) (.of_start rfl)
      ⟨hclosure, hlambda, hdepth⟩).exists_ended
  obtain ⟨r, w, hw, hrun, hr⟩ := hends e.nesting le_rfl
  refine ⟨r, w.store, fun depth hdepth => ?_, hr, w.reachesNoClosure (hw a (.of_start rfl))⟩
  -- within a greater depth it ends the same way, since the rules derive one outcome only
  obtain ⟨r', w', -, hrun', -⟩ := hends depth hdepth
  obtain ⟨rfl, heq⟩ := (Evaluator.within_sound _ hrun).unique (Evaluator.within_sound _ hrun')
  exact heq ▸ hrun'

/-- The expression `(+ (define y (if 1 2 3)) 1)`. -/
def Value.definitionInSum : Value :=
  .list [.symbol "+", .list [.symbol "define", .symbol "y",
    .list [.symbol "if", .number 1, .number 2, .number 3]], .number 1]

/-- The bound is attained: one evaluation less is too few. -/
theorem within_nesting_of_no_closures_of_definition :
    Value.definitionInSum.nesting = 4 ∧
      Evaluator.within 3 .definitionInSum Session.start.root Session.start.store = .tooDeep ∧
      Session.start.store.ReachesNoClosure Session.start.root ∧
      Value.definitionInSum.IsClosureFree ∧
      Value.symbol (Form.keyword .lambda) ∉ Value.definitionInSum ∧
      ∃ r t, (∀ depth ≥ Value.definitionInSum.nesting,
          Evaluator.within depth .definitionInSum Session.start.root Session.start.store =
            .ended r t) ∧
        (∀ v, r = .ok v → v.IsClosureFree) ∧ t.ReachesNoClosure Session.start.root := by
  have hstart : Session.start.store.WellFormed := Store.WellFormed.empty.addRoot
  have hplace (x : Place) (hx : x = .scope Session.start.root) : Session.start.store.HasPlace x :=
    hx ▸ Store.has_addScope ..
  -- there is no closure in the store at all
  have hfree : Session.start.store.ReachesNoClosure Session.start.root := fun c h =>
    Nat.not_lt_zero _ ((hstart.isRegion_reached hplace).has h)
  have hclosure : Value.definitionInSum.IsClosureFree := by
    simp [Value.IsClosureFree, Value.definitionInSum]
  have hlambda : Value.symbol (Form.keyword .lambda) ∉ Value.definitionInSum := by
    simp [Value.definitionInSum, Form.keyword]
  have hdeep : (Evaluator.within 3 .definitionInSum Session.start.root
      Session.start.store).answer? = none := by decide +kernel
  exact ⟨by decide +kernel, Outcome.eq_tooDeep_of_answer? hdeep, hfree, hclosure, hlambda,
    within_nesting_of_no_closures hfree hclosure hlambda⟩

end ScopedLisp
