import Mathlib.Order.Filter.Finite
import ScopedLisp.Proofs.Pairing.Composition
import ScopedLisp.Proofs.Scoping.LocalBinding

/-! # Parallel binding

No initializer of a `let` sees what the others are bound to. If moreover each of them leaves all that
was there as it was, their order makes no difference. Two that are neighbours lead to paired stores in
either order, and pairings compose, so any permutation leads to paired stores; a new scope that binds
the same names to partners is then the same for the body. -/

namespace ScopedLisp

variable {s t u : Store} {a : ScopeId} {e : Value} {depth : Nat}
  {bindings bindings' : List (String × Value)}

theorem AreBindings.perm (h : AreBindings bindings) (hperm : bindings.Perm bindings') :
    AreBindings bindings' where
  distinct := (hperm.map Prod.fst).nodup_iff.1 h.distinct
  bindable binding hmem := h.bindable binding (hperm.mem_iff.2 hmem)

/-! ### Names with values -/

/-- Whatever a name goes with in the one sequence, it goes with something related in the other. -/
def Matched (R : Value → Value → Prop) (pairs pairs' : List (String × Value)) : Prop :=
  ∀ name v, (name, v) ∈ pairs → ∃ v', (name, v') ∈ pairs' ∧ R v v'

namespace Matched
variable {R S : Value → Value → Prop} {pairs pairs' pairs'' : List (String × Value)}
  {name name' : String} {v v' w w' : Value}

theorem mono (h : Matched R pairs pairs') (hR : ∀ v v', R v v' → S v v') :
    Matched S pairs pairs' := fun name v hmem =>
  (h name v hmem).imp fun _ => And.imp_right (hR _ _)

theorem cons (hv : R v v') (h : Matched R pairs pairs') :
    Matched R ((name, v) :: pairs) ((name, v') :: pairs') := by
  intro key x hmem
  rcases List.mem_cons.1 hmem with heq | hmem
  · obtain ⟨rfl, rfl⟩ := Prod.mk.inj heq
    exact ⟨v', List.mem_cons_self, hv⟩
  · obtain ⟨y, hy, hxy⟩ := h key x hmem
    exact ⟨y, List.mem_cons_of_mem _ hy, hxy⟩

theorem swap (hv : R v v') (hw : R w w') (h : Matched R pairs pairs') :
    Matched R ((name, v) :: (name', w) :: pairs) ((name', w') :: (name, v') :: pairs') := by
  intro key x hmem
  obtain ⟨y, hy, hxy⟩ := (h.cons hw).cons hv key x hmem
  exact ⟨y, (List.Perm.swap ..).mem_iff.1 hy, hxy⟩

theorem trans (h : Matched R pairs pairs') (h' : Matched S pairs' pairs'') :
    Matched (fun v v'' => ∃ v', R v v' ∧ S v' v'') pairs pairs'' := by
  intro name v hmem
  obtain ⟨v', hmem', hv⟩ := h name v hmem
  obtain ⟨v'', hmem'', hv'⟩ := h' name v' hmem'
  exact ⟨v'', hmem'', v', hv, hv'⟩

theorem of_forall₂ {values values' : List Value} (h : List.Forall₂ R values values')
    (names : List String) : Matched R (names.zip values) (names.zip values') := by
  induction h generalizing names with
  | nil => simp [Matched]
  | cons first _ ih =>
    cases names with
    | nil => simp [Matched]
    | cons name names => exact (ih names).cons first

/-- Distinct names that are matched are bound to related values. -/
theorem related (h : Matched R pairs pairs') (hperm : (pairs.map Prod.fst).Perm (pairs'.map Prod.fst))
    (hdistinct : (pairs.map Prod.fst).Nodup) :
    (Bindings.ofList pairs).Related R (.ofList pairs') := by
  have hdistinct' := hperm.nodup_iff.1 hdistinct
  intro name
  cases hleft : (Bindings.ofList pairs).get? name with
  | some v =>
    obtain ⟨v', hmem, hv⟩ := h name v (Bindings.mem_of_get?_ofList hleft)
    rw [Bindings.get?_ofList_of_mem hdistinct' hmem]
    exact .some hv
  | none =>
    cases hright : (Bindings.ofList pairs').get? name with
    | some v' =>
      have hmem := List.mem_map_of_mem (f := Prod.fst) (Bindings.mem_of_get?_ofList hright)
      obtain ⟨⟨_, v⟩, hpair, rfl⟩ := List.mem_map.1 (hperm.mem_iff.2 hmem)
      rw [Bindings.get?_ofList_of_mem hdistinct hpair] at hleft
      cases hleft
    | none => exact .none

end Matched

/-! ### Quiet evaluations -/

/-- Whether an evaluation ends with a value, and leaves all that was there as it was. -/
def Quiet (depth : Nat) (e : Value) (a : ScopeId) (s : Store) : Prop :=
  ∃ v t, Evaluator.within depth e a s = .ok v t ∧ s.IntactIn t

/-- What is quiet in a store is so in any store in which that one is intact. -/
theorem Quiet.beside (h : Quiet depth e a s) (hs : s.WellFormed) (ha : s.Has a) (he : s.Closed e)
    (hsu : s.IntactIn u) : Quiet depth e a u := by
  obtain ⟨v, t, hends, hst⟩ := h
  obtain ⟨v', W, hW, rfl, hagain, -⟩ := Pairing.exists_ok_beside hs hsu ha he hends
  exact ⟨v', _, hagain, Pairing.intactIn_of_beside hW hst⟩

open Pairing in
/-- Two quiet evaluations commute: run one after the other in either order, they lead to paired stores
and to values that are alike. -/
theorem Quiet.commute {x y : Value} (hs : s.WellFormed) (ha : s.Has a) (hx : s.Closed x)
    (hy : s.Closed y) (hxquiet : Quiet depth x a s) (hyquiet : Quiet depth y a s) :
    ∃ (vx vx' vy vy' : Value) (t u : Store) (W : Pairing ∅), W.Spans s ∧ s.IntactIn W.left ∧
      Evaluator.within depth x a s = .ok vx t ∧ Evaluator.within depth y a t = .ok vy W.left ∧
      Evaluator.within depth y a s = .ok vy' u ∧ Evaluator.within depth x a u = .ok vx' W.right ∧
      vx.Alike W.closure vx' ∧ vy.Alike W.closure vy' := by
  obtain ⟨vx, t, hxends, ht⟩ := hxquiet
  obtain ⟨vy', u, hyends, hu⟩ := hyquiet
  obtain ⟨vx', W, hW, rfl, hxagain, hvx⟩ := exists_ok_beside hs hu ha hx hxends
  obtain ⟨vy, V, hV, rfl, hyagain, hvy⟩ := exists_ok_beside hs ht ha hy hyends
  exact ⟨vx, vx', vy, vy', _, _, cross ht hu hW hV, spans_cross ht hu hW hV,
    ht.trans (intactIn_of_beside hV hu), hxends, hyagain, hyends, hxagain,
    hvx.mono fun _ _ => .inl, hvy.symm.mono fun _ _ => .inr⟩

/-! ### Initializers in turn -/

namespace Evaluator
variable {ev : Evaluator} {es vs : List Value} {v : Value}

theorem all_cons_of_ok (hfirst : ev e a s = .ok v t) (hlater : ev.all a es t = .ok vs u) :
    ev.all a (e :: es) s = .ok (v :: vs) u := by
  simp only [all, Eval.bind_apply, hfirst, hlater, Eval.pure_apply]

theorem length_all (h : ev.all a es s = .ok vs t) : vs.length = es.length := by
  induction es generalizing s vs with
  | nil =>
    cases h
    rfl
  | cons e es ih =>
    have hends : (ev e a >>= fun v => ev.all a es >>= fun vs => pure (v :: vs)) s =
        .ended (.ok vs) t := h
    rcases Eval.bind_eq_ended_iff.1 hends with ⟨v, u, -, hlater⟩ | ⟨_, -, hfails⟩
    · rcases Eval.bind_eq_ended_iff.1 hlater with ⟨rest, u, hrest, hends⟩ | ⟨_, -, hfails⟩
      · cases hends
        exact congrArg (· + 1) (ih hrest)
      · cases hfails
    · cases hfails

/-- Quiet evaluations in turn end with values. -/
theorem exists_all_of_quiet (hs : s.WellFormed) (ha : s.Has a) (hclosed : ∀ e ∈ es, s.Closed e)
    (hquiet : ∀ e ∈ es, Quiet depth e a s) (hsu : s.IntactIn u) :
    ∃ vs t, (within depth).all a es u = .ok vs t := by
  induction es generalizing u with
  | nil => exact ⟨[], u, rfl⟩
  | cons e es ih =>
    obtain ⟨he, hclosed⟩ := List.forall_mem_cons.1 hclosed
    obtain ⟨hfirst, hquiet⟩ := List.forall_mem_cons.1 hquiet
    obtain ⟨v, t, hends, hut⟩ := hfirst.beside hs ha he hsu
    obtain ⟨vs, t', hlater⟩ := ih hclosed hquiet (hsu.trans hut)
    exact ⟨v :: vs, t', all_cons_of_ok hends hlater⟩

/-- What ends with values in one of two paired stores does so in the other. -/
theorem exists_all_of_spans {W : Pairing ∅} (hW : W.Spans s) (ha : s.Has a)
    (hclosed : ∀ e ∈ es, s.Closed e) (hends : (within depth).all a es W.left = .ok vs t) :
    ∃ (vs' : List Value) (W' : Pairing ∅), W ≤ W' ∧ W'.left = t ∧
      (within depth).all a es W.right = .ok vs' W'.right ∧
      List.Forall₂ (Value.Alike W'.closure) vs vs' := by
  have hrun := (Simulation.respects_within (S := Pairing.simulation ∅) depth).all (w := W)
    (List.forall₂_same.2 fun e he => hW.fits ha (hclosed e he))
  change (Pairing.correspondence ∅).OutcomesAgree W _ ((within depth).all a es W.left)
    ((within depth).all a es W.right) at hrun
  rw [hends] at hrun
  obtain ⟨vs', W', hagain, hle, hleft, -, hvs⟩ := hrun.exists_of_ok
  exact ⟨vs', W', hle, hleft, hagain, hvs⟩

end Evaluator

/-! ### Any order -/

open Evaluator in
/-- Quiet initializers lead to paired stores in any order, and each one to values that are alike. -/
theorem exists_matched_of_perm (hperm : bindings.Perm bindings') (hs : s.WellFormed) (ha : s.Has a)
    (hclosed : ∀ binding ∈ bindings, s.Closed binding.2)
    (hquiet : ∀ binding ∈ bindings, Quiet depth binding.2 a s) :
    ∃ (vs vs' : List Value) (W : Pairing ∅), W.Spans s ∧
      (within depth).all a (bindings.map Prod.snd) s = .ok vs W.left ∧
      (within depth).all a (bindings'.map Prod.snd) s = .ok vs' W.right ∧
      Matched (Value.Alike W.closure) ((bindings.map Prod.fst).zip vs)
        ((bindings'.map Prod.fst).zip vs') := by
  induction hperm generalizing s with
  | nil => exact ⟨[], [], .beside hs .refl, Pairing.spans_beside hs, rfl, rfl, nofun⟩
  | cons binding _ ih =>
    obtain ⟨he, hclosed⟩ := List.forall_mem_cons.1 hclosed
    obtain ⟨⟨v, t, hends, hst⟩, hquiet⟩ := List.forall_mem_cons.1 hquiet
    obtain ⟨ht, -, hv⟩ := hs.later_of_ok ha he hends
    obtain ⟨vs, vs', W, hspans, hleft, hright, hmatched⟩ := ih ht (ha.mono hst.le)
      (fun other hmem => (hclosed other hmem).mono hst.le)
      fun other hmem => (hquiet other hmem).beside hs ha (hclosed other hmem) hst
    exact ⟨v :: vs, v :: vs', W, hspans.of_le hst.le, all_cons_of_ok hends hleft,
      all_cons_of_ok hends hright, hmatched.cons (hspans.alike hv)⟩
  | swap second first rest =>
    obtain ⟨hx, hy, hclosed⟩ := by simpa only [List.forall_mem_cons] using hclosed
    obtain ⟨hxquiet, hyquiet, hquiet⟩ := by simpa only [List.forall_mem_cons] using hquiet
    obtain ⟨vx, vx', vy, vy', t, u, W, hspans, hintact, hxends, hyagain, hyends, hxagain, hvx, hvy⟩ :=
      Quiet.commute hs ha hx hy hxquiet hyquiet
    obtain ⟨vs, t', hrest⟩ := exists_all_of_quiet hs ha (List.forall_mem_map.2 hclosed)
      (List.forall_mem_map.2 hquiet) hintact
    obtain ⟨vs', W', hW, rfl, hrest', hvs⟩ :=
      exists_all_of_spans hspans ha (List.forall_mem_map.2 hclosed) hrest
    have hclosure := (Pairing.Extends.included hW).closure
    exact ⟨vx :: vy :: vs, vy' :: vx' :: vs', W', hspans.mono hW,
      all_cons_of_ok hxends (all_cons_of_ok hyagain hrest),
      all_cons_of_ok hyends (all_cons_of_ok hxagain hrest'),
      (Matched.of_forall₂ hvs _).swap (hvx.mono hclosure) (hvy.mono hclosure)⟩
  | trans hfirst _ ih ih' =>
    obtain ⟨vs, vs', W, hW, hleft, hmiddle, hmatched⟩ := ih hs ha hclosed hquiet
    obtain ⟨_, vs'', V, hV, hmiddle', hright, hmatched'⟩ := ih' hs ha
      (fun binding hmem => hclosed binding (hfirst.mem_iff.2 hmem))
      fun binding hmem => hquiet binding (hfirst.mem_iff.2 hmem)
    obtain ⟨rfl, hWV⟩ := Outcome.ok.inj (hmiddle.symm.trans hmiddle')
    refine ⟨vs, vs'', W.trans V hWV, hW.trans hV hWV, hleft, hright,
      (hmatched.trans hmatched').mono ?_⟩
    rintro v v'' ⟨v', hv, hv'⟩
    exact hv.trans hv'

open Evaluator in
/-- A `let` with quiet initializers, and one with the same bindings in another order: in paired stores
their bodies are to be evaluated in scopes with related bindings. -/
theorem exists_related_of_perm (hperm : bindings.Perm bindings') (hbindings : AreBindings bindings)
    (hs : s.WellFormed) (ha : s.Has a) (hclosed : ∀ binding ∈ bindings, s.Closed binding.2)
    (hquiet : ∀ binding ∈ bindings, Quiet depth binding.2 a s) (body : Value) :
    ∃ (W : Pairing ∅) (own own' : Bindings Value), W.Spans s ∧
      own.Related (Value.Alike W.closure) own' ∧
      within (depth + 1) (.letOf bindings body) a s =
        (Eval.newScope a own >>= within depth body) W.left ∧
      within (depth + 1) (.letOf bindings' body) a s =
        (Eval.newScope a own' >>= within depth body) W.right := by
  obtain ⟨vs, vs', W, hspans, hleft, hright, hmatched⟩ :=
    exists_matched_of_perm hperm hs ha hclosed hquiet
  have hnames : ((bindings.map Prod.fst).zip vs).map Prod.fst = bindings.map Prod.fst :=
    List.map_fst_zip (by simp [length_all hleft])
  have hnames' : ((bindings'.map Prod.fst).zip vs').map Prod.fst = bindings'.map Prod.fst :=
    List.map_fst_zip (by simp [length_all hright])
  refine ⟨W, _, _, hspans, hmatched.related ?_ ?_, ?_, ?_⟩
  · rw [hnames, hnames']
    exact hperm.map Prod.fst
  · rw [hnames]
    exact hbindings.distinct
  · change step (within depth) _ a s = _
    rw [step_letOf _ hbindings, Eval.bind_apply, hleft]
  · change step (within depth) _ a s = _
    rw [step_letOf _ (hbindings.perm hperm), Eval.bind_apply, hright]

open Filter Pairing in
/-- The order of the bindings of a `let` does not matter, if each of the initializers ends with a value
and leaves all scopes as they were when it is evaluated alone. -/
theorem sameFate_letOf_perm {s : Store} (hs : s.WellFormed) {a : ScopeId} (ha : s.Has a)
    {bindings : List (String × Value)} (hbindings : AreBindings bindings)
    (hclosed : ∀ binding ∈ bindings, s.Closed binding.2)
    (hquiet : ∀ binding ∈ bindings, ∃ v t, Evaluates binding.2 a s (.ok v) t ∧
      ∀ b, s.Has b → t.scope? b = s.scope? b)
    {bindings' : List (String × Value)} (hperm : bindings.Perm bindings') {body : Value}
    (hbody : s.Closed body) :
    SameFate (Corresponds ∅ s) (.letOf bindings body) a s (.letOf bindings' body) a s := by
  have hquiet : ∀ᶠ depth in atTop, ∀ binding ∈ bindings, Quiet depth binding.2 a s := by
    refine (eventually_all_finite (List.finite_toSet bindings)).2 fun binding hmem => ?_
    obtain ⟨v, t, heval, hsame⟩ := hquiet binding hmem
    filter_upwards [heval.eventually] with depth hends
    obtain ⟨-, hst, -⟩ := hs.later_of_ok ha (hclosed binding hmem) hends
    exact ⟨v, t, hends, hst, hsame _⟩
  apply SameFate.of_eventually
  rw [← map_add_atTop_eq_nat 1, eventually_map]
  filter_upwards [hquiet] with depth hquiet
  obtain ⟨W, own, own', hspans, hown, hleft, hright⟩ :=
    exists_related_of_perm hperm hbindings hs ha hclosed hquiet body
  have hrun := (Simulation.respects_within (S := simulation ∅) depth).agree_newScope
    (later_addScope (hspans.fits ha hbody) hown)
  rw [hleft, hright]
  rcases Correspondence.OutcomesAgree.cases hrun with hdeep | ⟨r, u, r', u', hr, hr', hlater⟩
  · exact .inl hdeep
  · obtain ⟨W', hW, rfl, rfl, hresults⟩ := hlater
    exact .inr ⟨r, _, r', _, hr, hr', W', rfl, rfl, hspans.mono hW, hresults⟩

/-- Both initializers make closures, and the second one a scope. -/
theorem sameFate_letOf_perm_of_closures :
    ∃ f g : String × Value, f = ("f", .lambdaOf [] (.number 1)) ∧
      g = ("g", .appliedLambda [] (.lambdaOf [] (.number 2))) ∧ AreBindings [f, g] ∧
      SameFate (Corresponds ∅ Session.start.store) (.letOf [f, g] (.symbol "f")) Session.start.root
        Session.start.store (.letOf [g, f] (.symbol "f")) Session.start.root
        Session.start.store := by
  have hbindings : AreBindings [("f", .lambdaOf [] (.number 1)),
      ("g", .appliedLambda [] (.lambdaOf [] (.number 2)))] :=
    ⟨by decide, by simp [IsBindable]; decide⟩
  have hclosed : ∀ binding ∈ [("f", Value.lambdaOf [] (.number 1)),
      ("g", .appliedLambda [] (.lambdaOf [] (.number 2)))], Session.start.store.Closed binding.2 := by
    simp [Store.Closed, Value.lambdaOf, Value.appliedLambda]
  refine ⟨_, _, rfl, rfl, hbindings,
    sameFate_letOf_perm Store.WellFormed.empty.addRoot (Store.has_addScope ..) hbindings hclosed
      (List.forall_mem_cons.2 ⟨?_, List.forall_mem_singleton.2 ?_⟩) (List.Perm.swap ..)
      (Store.closed_symbol _ "f")⟩
  · exact ⟨_, _, Evaluator.within_sound (r := .ok _) 3 rfl, fun _ _ => rfl⟩
  · exact ⟨_, _, Evaluator.within_sound (r := .ok _) 3 rfl,
      fun _ hb => Store.scope?_addScope_of_has hb _ _⟩

end ScopedLisp
