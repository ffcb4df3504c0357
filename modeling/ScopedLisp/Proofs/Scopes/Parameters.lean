import ScopedLisp.Proofs.Forms.Faults
import ScopedLisp.Proofs.Scopes.Reachable
import ScopedLisp.Proofs.Scopes.Region

/-! # Parameters and arguments

A call binds the parameters of a closure to its arguments one by one, in a map. No argument is lost by
that as long as the parameters are distinct, which is checked in another place: where the closure is
made, by the only form that makes closures. Nothing changes a closure later on, so its parameters are
distinct names that can be bound wherever it gets to. -/

namespace ScopedLisp

namespace Bindings
variable {α : Type}

theorem nodup_names (b : Bindings α) : b.names.Nodup := by
  rw [names, List.nodup_iff_pairwise_ne, List.pairwise_map]
  refine b.ascending.imp fun hlt heq => ?_
  exact String.lt_irrefl _ (heq ▸ hlt)

variable {names : List String} {values : List α}

/-- Distinct names bound to as many values, one by one. -/
theorem get?_ofList_zip (hdistinct : names.Nodup) (hlength : values.length = names.length) {i : Nat}
    (hi : i < names.length) : (ofList (names.zip values)).get? names[i] = values[i]? := by
  have hi' : i < values.length := hlength ▸ hi
  have hmem : (names[i], values[i]) ∈ names.zip values := by
    rw [← List.getElem_zip (h := by simp [hi, hi'])]
    exact List.getElem_mem _
  have hfirst : (names.zip values).map Prod.fst = names :=
    List.map_fst_zip (Nat.le_of_eq hlength.symm)
  rw [get?_ofList_of_mem (hfirst.symm ▸ hdistinct) hmem, List.getElem?_eq_getElem hi']

theorem names_ofList_zip_perm (hdistinct : names.Nodup) (hlength : values.length = names.length) :
    (ofList (names.zip values)).names.Perm names := by
  rw [List.perm_ext_iff_of_nodup (nodup_names _) hdistinct]
  refine fun name => ⟨fun h => ?_, fun h => ?_⟩
  · exact mem_of_contains_ofList_zip (mem_names_iff.1 h)
  · obtain ⟨i, hi, rfl⟩ := List.mem_iff_getElem.1 h
    rw [mem_names_iff, contains, get?_ofList_zip hdistinct hlength hi,
      List.getElem?_eq_getElem (hlength ▸ hi), Option.isSome_some]

end Bindings

namespace Store
variable {s t : Store}

/-- Whether all closures have parameters in order. -/
def ParametersInOrder (s : Store) : Prop :=
  ∀ c closure, s.closure? c = some closure → AreParameters closure.params

theorem ParametersInOrder.addClosure (hs : s.ParametersInOrder) {closure : Closure}
    (hparams : AreParameters closure.params) : (s.addClosure closure).2.ParametersInOrder :=
  fun _ _ => forall_closure?_addClosure (hs _ _) hparams

/-- One store on both sides, where equal values correspond and all code may run. -/
def keepingParameters : Simulation {s : Store // s.ParametersInOrder} where
  left := Subtype.val
  right := Subtype.val
  value _ v v' := v = v'
  code _ e a e' b := e = e' ∧ a = b
  value_mono _ := id
  code_mono _ := id
  alike := by
    rintro w v _ rfl
    exact .refl fun _ _ => rfl
  code_value h := h.1
  code_items := by
    rintro w items a _ _ ⟨heq, rfl⟩
    obtain rfl := Value.list.inj heq
    exact List.forall₂_same.2 fun _ _ => ⟨rfl, rfl⟩
  number _ := rfl
  boolean _ := rfl
  gather _ h := congrArg _ (List.forall₂_eq_eq_eq ▸ h)
  lookup := by
    rintro w name a _ ⟨-, rfl⟩ -
    cases h : w.1.get? a name with
    | some v => exact .some rfl
    | none => exact .none
  define := by
    rintro w name expr a _ _ v _ ⟨-, rfl⟩ - rfl
    exact ⟨⟨w.1.define a name v, w.2⟩, le_define .., rfl, rfl, trivial⟩
  assign := by
    rintro w name expr a _ _ v _ ⟨-, rfl⟩ - rfl
    rw [set?]
    cases w.1.owner? a name with
    | some owner =>
      exact .some ⟨⟨w.1.define owner name v, w.2⟩, le_define .., rfl, rfl, trivial⟩
    | none => exact .none
  child := by
    rintro w e a _ _ own _ ⟨rfl, rfl⟩ hown -
    obtain rfl := hown.eq_of fun _ _ _ _ => id
    exact ⟨⟨(w.1.addScope (some a) own).2, w.2⟩, le_addScope .., rfl, rfl, rfl, rfl⟩
  lambda := by
    rintro w targets body a targets' body' _ params ⟨heq, rfl⟩ hdistinct hbind
    obtain ⟨rfl, rfl⟩ : targets = targets' ∧ body = body' := by simpa using heq
    have hparams : AreParameters params := ⟨hdistinct, fun name hname => (hbind name hname).1⟩
    exact ⟨⟨_, w.2.addClosure hparams⟩, le_addClosure .., rfl, rfl, rfl⟩
  call := by
    rintro w c _ C D heq hC hD args args' hargs -
    obtain rfl : c = _ := by simpa using heq
    obtain rfl := Option.some.inj (hC ▸ hD)
    obtain rfl : args = args' := List.forall₂_eq_eq_eq ▸ hargs
    exact ⟨⟨(w.1.addScope (some C.scope) (.ofList (C.params.zip args))).2, w.2⟩, le_addScope ..,
      rfl, rfl, rfl, rfl⟩

namespace ParametersInOrder

theorem empty : Store.empty.ParametersInOrder := by
  intro c closure h
  simp [closure?, Store.empty] at h

/-- A computation that agrees with itself keeps parameters in order. -/
theorem of_agree (hs : s.ParametersInOrder) {α : Type}
    {R : {s : Store // s.ParametersInOrder} → α → α → Prop} {x : Eval α}
    (h : keepingParameters.Agree ⟨s, hs⟩ R x x) {r : Except EvalError α} (hx : x s = .ended r t) :
    t.ParametersInOrder := by
  change keepingParameters.OutcomesAgree _ R (x s) (x s) at h
  rw [hx] at h
  obtain ⟨w, -, rfl⟩ := h.exists_left
  exact w.2

theorem of_run (hs : s.ParametersInOrder) {root : ScopeId} {text : String} {depth : Nat}
    {r : Except EvalError Value} (h : Eval.run depth root text s = .ended r t) :
    t.ParametersInOrder := by
  rcases Eval.ended_of_run h with ⟨e, -, hends⟩ | ⟨cause, -, -, rfl⟩
  · exact hs.of_agree (Simulation.respects_within depth ⟨rfl, rfl⟩) hends
  · exact hs

/-- Every operation keeps parameters in order. -/
theorem of_operates (hs : s.ParametersInOrder) (h : Operates s t) : t.ParametersInOrder := by
  have hev (depth : Nat) : keepingParameters.Respects (Evaluator.within depth) :=
    Simulation.respects_within depth
  cases h with
  | run _ ends => exact hs.of_run ends
  | evaluate _ _ ends => exact hs.of_agree (hev _ ⟨rfl, rfl⟩) ends
  | @apply p args depth r t _ _ ends =>
    have hargs : List.Forall₂ Eq args args := List.forall₂_same.2 fun _ _ => rfl
    exact hs.of_agree ((hev _).apply rfl hargs) ends
  | form _ _ ends => exact hs.of_agree ((hev _).form ⟨rfl, rfl⟩) ends
  -- the other operations make no closure
  | initial | root | child | define => exact hs
  | assign _ _ ends =>
    rcases Eval.ended_of_assign ends with ⟨owner, rfl⟩ | rfl
    · exact hs
    · exact hs

theorem of_leads (hs : s.ParametersInOrder) (h : Leads s t) : t.ParametersInOrder := by
  induction h with
  | refl => exact hs
  | tail _ step ih => exact ih.of_operates step

end ParametersInOrder

/-! ### Values that are answered -/

/-- An operation ends with a value, and leaves a store. -/
inductive Answers (s : Store) : Value → Store → Prop
  | run {root text depth v t} (known : s.Has root)
      (ends : Eval.run depth root text s = .ok v t) : Answers s v t
  | evaluate {e a depth v t} (known : s.Has a) (closed : s.Closed e)
      (ends : Evaluator.within depth e a s = .ok v t) : Answers s v t
  | apply {p args depth v t} (closed : s.Closed (.procedure p))
      (closedArgs : ∀ arg ∈ args, s.Closed arg)
      (ends : Procedure.apply (Evaluator.within depth) p args s = .ok v t) : Answers s v t
  | form {form operands a depth v t} (known : s.Has a)
      (closed : ∀ operand ∈ operands, s.Closed operand)
      (ends : Form.apply (Evaluator.within depth) form operands a s = .ok v t) : Answers s v t

theorem Answers.operates {v : Value} (h : Answers s v t) : Operates s t := by
  cases h with
  | run known ends => exact .run (r := .ok v) known ends
  | evaluate known closed ends => exact .evaluate (r := .ok v) known closed ends
  | apply closed closedArgs ends => exact .apply (r := .ok v) closed closedArgs ends
  | form known closed ends => exact .form (r := .ok v) known closed ends

/-- What an operation answers refers to what was made. -/
theorem Answers.closed (hs : s.WellFormed) {v : Value} (h : Answers s v t) : t.Closed v := by
  cases h with
  | run known ends =>
    rcases Eval.ended_of_run (r := .ok v) ends with ⟨e, htext, hends⟩ | ⟨cause, -, hr, -⟩
    · have hclosed := closed_of_isDatum (Value.isDatum_of_ofText htext) s
      exact closed_of_agree (w := ⟨s, hs⟩) (agree_within known hclosed _) hends
    · cases hr
  | evaluate known closed ends =>
    exact closed_of_agree (w := ⟨s, hs⟩) (agree_within known closed _) ends
  | apply closed closedArgs ends =>
    exact closed_of_agree (w := ⟨s, hs⟩) (agree_apply closed closedArgs _) ends
  | form known closed ends =>
    exact closed_of_agree (w := ⟨s, hs⟩) (agree_form known closed _) ends

/-! ### Calls -/

/-- A store with one more scope, inside the one that a closure was made in. Its own bindings are the
parameters of the closure, bound to the arguments one by one. -/
structure Enters (s : Store) (closure : Closure) (args : List Value) (inner : ScopeId)
    (t : Store) : Prop where
  fresh : ¬ s.Has inner
  has_iff : ∀ a, t.Has a ↔ s.Has a ∨ a = inner
  intact : s.IntactIn t
  closures : t.closures = s.closures
  parent : t.parent? inner = some closure.scope
  names : (t.ownNames inner).Perm closure.params
  bound : ∀ (i : Nat) (hi : i < closure.params.length), t.own? inner closure.params[i] = args[i]?

theorem enters_addScope (s : Store) {closure : Closure} (distinct : closure.params.Nodup)
    {args : List Value} (count : args.length = closure.params.length) :
    s.Enters closure args
      (s.addScope (some closure.scope) (.ofList (closure.params.zip args))).1
      (s.addScope (some closure.scope) (.ofList (closure.params.zip args))).2 where
  fresh := not_has_addScope _ _ _
  has_iff _ := has_addScope_iff ..
  intact := .addScope ..
  closures := rfl
  parent := by rw [parent?_addScope, if_pos rfl]
  names := by
    rw [ownNames, scope?_addScope, if_pos rfl]
    exact Bindings.names_ofList_zip_perm distinct count
  bound i hi := by
    rw [own?_addScope, if_pos rfl]
    exact Bindings.get?_ofList_zip distinct count hi

/-- What a closure in order does with arguments: it refuses a wrong number of them without any effect,
and evaluates its body in a new scope that binds each parameter to its argument. -/
structure Calls (s : Store) (c : ClosureId) (closure : Closure) (depth : Nat) (args : List Value) :
    Prop where
  refuses : args.length ≠ closure.params.length →
    Procedure.apply (Evaluator.within depth) (.closure c) args s =
      .error (.arity (s.procedureText (.closure c)) (.exactly closure.params.length) args.length) s
  enters : args.length = closure.params.length → ∃ inner t, s.Enters closure args inner t ∧
    Procedure.apply (Evaluator.within depth) (.closure c) args s =
      Evaluator.within depth closure.body inner t

theorem calls_of_distinct {c : ClosureId} {closure : Closure} (known : s.closure? c = some closure)
    (distinct : closure.params.Nodup) (depth : Nat) (args : List Value) :
    s.Calls c closure depth args where
  refuses count := by simp [Procedure.apply, known, count, text]
  enters count := ⟨_, _, s.enters_addScope distinct count, by simp [Procedure.apply, known, count]⟩

/-- Whether all closures in a value are known, with parameters in order. -/
def KnowsClosures (s : Store) (v : Value) : Prop :=
  ∀ c, Value.procedure (.closure c) ∈ v →
    ∃ closure, s.closure? c = some closure ∧ AreParameters closure.params

theorem ParametersInOrder.knowsClosures (hs : s.ParametersInOrder) {v : Value} (hv : s.Closed v) :
    s.KnowsClosures v := by
  intro c hc
  obtain ⟨closure, known⟩ := hasClosure_iff.1 (hv c hc)
  exact ⟨closure, known, hs c closure known⟩

/-- Whatever was done before, each closure of a store has distinct parameters that can be bound, and so
have the closures in all that is bound, in code and in what an operation answers. So a call with the
right number of arguments loses none of them, and one with another number is refused. -/
theorem calls_of_leads {s : Store} (hs : Leads .empty s) :
    (∀ c closure, s.closure? c = some closure →
      AreParameters closure.params ∧ s.KnowsClosures closure.body) ∧
    (∀ a name v, s.own? a name = some v → s.KnowsClosures v) ∧
    (∀ v t, Answers s v t → t.KnowsClosures v) ∧
    ∀ c closure, s.closure? c = some closure → ∀ depth args, s.Calls c closure depth args := by
  obtain ⟨hwell, -⟩ := WellFormed.empty.later_of_leads hs
  have horder := ParametersInOrder.empty.of_leads hs
  refine ⟨fun c closure known => ⟨horder c closure known, ?_⟩, fun a name v hown => ?_,
    fun v t h => ?_, fun c closure known => ?_⟩
  · exact horder.knowsClosures (hwell.captured known).2
  · exact horder.knowsClosures (hwell.bound hown)
  · exact (horder.of_operates h.operates).knowsClosures (h.closed hwell)
  · exact calls_of_distinct known (horder c closure known).distinct

/-- A closure of two parameters that is bound by a text which fails afterwards. -/
theorem calls_of_leads_of_failed_text :
    ∃ s closure, Leads .empty s ∧ s.own? ⟨0⟩ "f" = some (.procedure (.closure ⟨0⟩)) ∧
      s.closure? ⟨0⟩ = some closure ∧ closure.params = ["x", "y"] ∧ closure.scope = ⟨0⟩ ∧
      (∀ c closure, s.closure? c = some closure →
        AreParameters closure.params ∧ s.KnowsClosures closure.body) ∧
      (∀ a name v, s.own? a name = some v → s.KnowsClosures v) ∧
      (∀ v t, Answers s v t → t.KnowsClosures v) ∧
      ∀ c closure, s.closure? c = some closure → ∀ depth args, s.Calls c closure depth args := by
  have hshown : ((Session.start.run 10 "(+ (define f (lambda (x y) (define z x))) 1)").answer?.map
      fun shown => (shown.2.own? ⟨0⟩ "f",
        (shown.2.closure? ⟨0⟩).map fun closure => (closure.params, closure.scope))) =
        some (some (.procedure (.closure ⟨0⟩)), some (["x", "y"], ⟨0⟩)) := by decide +kernel
  obtain ⟨⟨answer, s⟩, hanswer, heq⟩ := Option.map_eq_some_iff.1 hshown
  obtain ⟨hbound, hparts⟩ := Prod.mk.inj heq
  obtain ⟨closure, known, hparts⟩ := Option.map_eq_some_iff.1 hparts
  obtain ⟨hparams, hscope⟩ := Prod.mk.inj hparts
  obtain ⟨r, hends⟩ := Outcome.exists_ended_of_answer? hanswer
  have hs : Leads .empty s := .tail (.tail .refl .initial) (.run (has_addScope ..) hends)
  exact ⟨s, closure, hs, hbound, known, hparams, hscope, calls_of_leads hs⟩

end Store
end ScopedLisp
