import ScopedLisp.Proofs.Pairing.Inclusion
import ScopedLisp.Proofs.Scopes.Reachable

/-! # Local bindings

A `let` and the application of a `lambda` with the same names and body to the initializers are
evaluated by different code. They have the same fate and the same effects all the same, except that
the application makes a closure for itself. -/

namespace ScopedLisp

/-- The expression that binds names to the values of initializers in a body. -/
def Value.letOf (bindings : List (String × Value)) (body : Value) : Value :=
  .list [.symbol "let",
    .list (bindings.map fun (name, initializer) => .list [.symbol name, initializer]), body]

/-- The expression for a closure. -/
def Value.lambdaOf (params : List String) (body : Value) : Value :=
  .list [.symbol "lambda", .list (params.map .symbol), body]

/-- The expression that applies a closure at once to the values of initializers. -/
def Value.appliedLambda (bindings : List (String × Value)) (body : Value) : Value :=
  .list (lambdaOf (bindings.map Prod.fst) body :: bindings.map Prod.snd)

theorem IsBindable.bindableName?_eq {name : String} (h : IsBindable name) :
    (Value.symbol name).bindableName? = some name :=
  bindableName?_eq_some_iff.2 ⟨rfl, h⟩

/-- Distinct bindable names, each with an initializer. -/
structure AreBindings (bindings : List (String × Value)) : Prop where
  distinct : (bindings.map Prod.fst).Nodup
  bindable : ∀ binding ∈ bindings, IsBindable binding.1

/-- The initializers of distinct names that are not bound yet are evaluated as operands are, and their
values are bound to the names. -/
theorem Form.bindAll_eq_all (ev : Evaluator) {bindings : List (String × Value)}
    (hbindings : AreBindings bindings) (a : ScopeId) {own : Bindings Value}
    (hfresh : ∀ binding ∈ bindings, own.contains binding.1 = false) :
    bindAll ev a own (bindings.map fun (name, initializer) => .list [.symbol name, initializer]) =
      ev.all a (bindings.map Prod.snd) >>= fun values =>
        pure (((bindings.map Prod.fst).zip values).foldl
          (fun own (name, value) => own.insert name value) own) := by
  induction bindings generalizing own with
  | nil => rfl
  | cons binding rest ih =>
    obtain ⟨name, initializer⟩ := binding
    obtain ⟨hname, hbindable⟩ := List.forall_mem_cons.1 hbindings.bindable
    obtain ⟨hunseen, hrest⟩ := List.forall_mem_cons.1 hfresh
    obtain ⟨hother, hdistinct⟩ := List.nodup_cons.1 hbindings.distinct
    have hfresh' (v : Value) : ∀ binding ∈ rest, (own.insert name v).contains binding.1 = false := by
      intro binding hmem
      have hne : binding.1 ≠ name := by
        rintro rfl
        exact hother (List.mem_map.2 ⟨binding, hmem, rfl⟩)
      simpa [Bindings.contains, hne] using hrest binding hmem
    simp only [List.map_cons, bindAll, nameOf_of_some _ hname.bindableName?_eq, pure_bind, hunseen,
      Bool.false_eq_true, if_false, ih ⟨hdistinct, hbindable⟩ (hfresh' _), Evaluator.all, bind_assoc,
      List.zip_cons_cons, List.foldl_cons]

variable {s : Store} {a : ScopeId} {bindings : List (String × Value)} {body : Value}

/-- What an applied lambda does once its closure is made. -/
theorem Evaluator.step_appliedLambda (ev : Evaluator) (bindings : List (String × Value))
    (body : Value) (a : ScopeId) :
    step ev (.appliedLambda bindings body) a =
      ev (.lambdaOf (bindings.map Prod.fst) body) a >>= fun operator =>
        ev.all a (bindings.map Prod.snd) >>= fun args => ev.applyFirst (operator :: args) := by
  rw [Value.appliedLambda, step_list ev (by simp [Value.lambdaOf])]
  simp only [Evaluator.all, bind_assoc, pure_bind]

theorem Evaluator.step_lambdaOf (ev : Evaluator) (hbindings : AreBindings bindings) (body : Value)
    (a : ScopeId) (s : Store) :
    step ev (.lambdaOf (bindings.map Prod.fst) body) a s =
      .ok (.procedure (.closure (s.addClosure ⟨bindings.map Prod.fst, body, a⟩).1))
        (s.addClosure ⟨bindings.map Prod.fst, body, a⟩).2 := by
  have hparams : Form.parameters [] ((bindings.map Prod.fst).map Value.symbol) =
      pure (bindings.map Prod.fst) := by
    refine Form.parameters_eq_pure ?_ hbindings.distinct
    simp only [List.map_map, List.map_inj_left, Function.comp]
    exact fun binding hmem => (hbindings.bindable binding hmem).bindableName?_eq
  have hkeyword : (Value.symbol "lambda").form? = some .lambda := Form.ofKeyword?_keyword .lambda
  simp only [step, Value.lambdaOf, hkeyword, Form.apply, hparams, pure_bind]
  rfl

/-- What a `let` does: its initializers are evaluated as operands are, and the names bound in a new
scope. -/
theorem Evaluator.step_letOf (ev : Evaluator) (hbindings : AreBindings bindings) (body : Value)
    (a : ScopeId) :
    step ev (.letOf bindings body) a =
      ev.all a (bindings.map Prod.snd) >>= fun values =>
        Eval.newScope a (.ofList ((bindings.map Prod.fst).zip values)) >>= fun inner =>
          ev body inner := by
  have hkeyword : (Value.symbol "let").form? = some .bind := Form.ofKeyword?_keyword .bind
  have hfresh : ∀ binding ∈ bindings, (.empty : Bindings Value).contains binding.1 = false :=
    fun _ _ => rfl
  simp only [step, Value.letOf, hkeyword, Form.apply, Form.bindAll_eq_all ev hbindings a hfresh,
    bind_assoc, pure_bind, Bindings.ofList]

/-- A store beside the one in which the closure of an applied lambda was made. -/
def Pairing.withClosure (hs : s.WellFormed) (C : Closure) : Pairing ∅ :=
  ofIncluded hs (Store.le_addClosure s C) (fun _ _ => rfl) nofun nofun

theorem Pairing.spans_withClosure (hs : s.WellFormed) (C : Closure) : (withClosure hs C).Spans s where
  scope _ hb := ⟨rfl, hb⟩
  closure _ hc := ⟨rfl, hc⟩
  left b hb := ⟨b, rfl, hb⟩
  right b hb := .inr ⟨b, rfl, hb⟩

theorem Pairing.fits_withClosure (hs : s.WellFormed) (C : Closure) (ha : s.Has a) {e : Value}
    (he : s.Closed e) : (withClosure hs C).Fits ∅ e a e a :=
  Pairs.fits_same (Store.le_addClosure s C) nofun ha he

/-- A `let` needs a depth of two: one for itself and one for its body or an initializer. -/
theorem Evaluator.within_one_letOf (hbindings : AreBindings bindings) :
    within 1 (.letOf bindings body) a s = .tooDeep := by
  change step (within 0) _ a s = _
  rw [step_letOf _ hbindings]
  cases bindings <;> rfl

theorem Evaluator.within_one_appliedLambda :
    within 1 (.appliedLambda bindings body) a s = .tooDeep := by
  change step (within 0) _ a s = _
  rw [step_appliedLambda]
  rfl

open Pairing in
/-- Once its closure is made, an applied lambda agrees with the `let`. -/
theorem agree_letOf (hs : s.WellFormed) (ha : s.Has a) (hbindings : AreBindings bindings)
    (hinitializers : ∀ binding ∈ bindings, s.Closed binding.2) (hbody : s.Closed body)
    (depth : Nat) :
    (correspondence ∅).OutcomesAgree (withClosure hs ⟨bindings.map Prod.fst, body, a⟩)
      (correspondence ∅).value (Evaluator.within depth (.letOf bindings body) a s)
      (Evaluator.within depth (.appliedLambda bindings body) a s) := by
  match depth with
  | 0 => trivial
  | 1 =>
    rw [Evaluator.within_one_letOf hbindings, Evaluator.within_one_appliedLambda]
    trivial
  | depth + 2 =>
    let C : Closure := ⟨bindings.map Prod.fst, body, a⟩
    have hev : (simulation ∅).Respects (Evaluator.within (depth + 1)) :=
      Simulation.respects_within _
    change (correspondence ∅).OutcomesAgree _ _ (Evaluator.step _ _ a s) (Evaluator.step _ _ a s)
    have hlambda : Evaluator.within (depth + 1) (.lambdaOf (bindings.map Prod.fst) body) a s =
        .ok (.procedure (.closure (s.addClosure C).1)) (s.addClosure C).2 :=
      Evaluator.step_lambdaOf _ hbindings body a s
    rw [Evaluator.step_letOf _ hbindings, Evaluator.step_appliedLambda,
      Eval.bind_apply (Evaluator.within _ _ a), hlambda]
    have hcodes : List.Forall₂ (fun e e' => (withClosure hs C).Fits ∅ e a e' a)
        (bindings.map Prod.snd) (bindings.map Prod.snd) :=
      List.forall₂_same.2 <| List.forall_mem_map.2 fun binding hmem =>
        fits_withClosure hs C ha (hinitializers binding hmem)
    refine (hev.all hcodes).bind fun W hW values values' hvalues => ?_
    obtain ⟨hlength, hvalues⟩ := hvalues
    have hclosure : W.right.closure? (s.addClosure C).1 = some C := by
      refine hW.right.le.closure ?_
      change (s.addClosure C).2.closure? _ = _
      rw [Store.closure?_addClosure, if_pos rfl]
    have hbody : W.Fits ∅ body a body a :=
      (fits_withClosure hs C ha hbody).mono (Extends.included hW)
    have hrun := hev.agree_newScope
      (later_addScope hbody (.ofList_zip (bindings.map Prod.fst) hvalues))
    change (correspondence ∅).OutcomesAgree W _ _ (Evaluator.applyFirst _ _ W.right)
    have hcount : values'.length = C.params.length := by
      rw [← hvalues.length_eq, hlength, List.length_map, List.length_map]
    rw [Evaluator.applyFirst_closure _ hclosure hcount]
    exact hrun

/-- A `let` does what the application of a `lambda` does: they have the same fate and the same effects
but for the closure that is applied. -/
theorem sameFate_letOf {s : Store} (hs : s.WellFormed) {a : ScopeId} (ha : s.Has a)
    {bindings : List (String × Value)} (hbindings : AreBindings bindings)
    (hinitializers : ∀ binding ∈ bindings, s.Closed binding.2) {body : Value}
    (hbody : s.Closed body) :
    SameFate (Corresponds ∅ s) (.letOf bindings body) a s (.appliedLambda bindings body) a s := by
  have hfate := Correspondence.sameFate_of_agree
    (agree_letOf hs ha hbindings hinitializers hbody)
  refine hfate.mono ?_
  rintro r _ r' _ ⟨W, hW, rfl, rfl, hresults⟩
  exact ⟨W, rfl, rfl, (Pairing.spans_withClosure hs _).mono hW, hresults⟩

/-- The second initializer fails after the first one wrote a variable. -/
theorem sameFate_letOf_of_failure :
    ∃ (bindings : List (String × Value)) (body : Value), bindings.map Prod.fst = ["x", "y"] ∧
      bindings.map Prod.snd = [.list [.symbol "define", .symbol "z", .number 1], .symbol "u"] ∧
      AreBindings bindings ∧
      SameFate (Corresponds ∅ Session.start.store) (.letOf bindings body) Session.start.root
        Session.start.store (.appliedLambda bindings body) Session.start.root
        Session.start.store := by
  have hbindings : AreBindings [("x", .list [.symbol "define", .symbol "z", .number 1]),
      ("y", .symbol "u")] :=
    ⟨by decide, by simp [IsBindable]; decide⟩
  exact ⟨_, .symbol "x", rfl, rfl, hbindings,
    sameFate_letOf Store.WellFormed.empty.addRoot (Store.has_addScope ..) hbindings
      (by simp [Store.Closed]) (by simp [Store.Closed])⟩

end ScopedLisp
