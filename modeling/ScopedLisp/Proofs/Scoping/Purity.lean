import ScopedLisp.Proofs.Evaluation.Completeness
import ScopedLisp.Proofs.Pairing.Inclusion
import ScopedLisp.Proofs.Scopes.Footprint

/-! # Purity

Only definition and assignment write to scopes that exist already. Code that mentions neither, in a
region of the store where no closure mentions them, therefore leaves all of these scopes as they were;
the scopes and closures it makes join the region. What it leaves is a store that includes the first
one, so a second evaluation ends as the first did, up to the identity of what both of them made. -/

namespace ScopedLisp

/-- Whether the keywords of definition and of assignment do not occur in a value. -/
structure Value.IsPure (e : Value) : Prop where
  define : Value.symbol (Form.keyword .define) ∉ e
  assign : Value.symbol (Form.keyword .assign) ∉ e

theorem Value.IsPure.item {items : List Value} (h : (Value.list items).IsPure) {item : Value}
    (hitem : item ∈ items) : item.IsPure where
  define hmem := h.define (mem_list_of_mem hitem hmem)
  assign hmem := h.assign (mem_list_of_mem hitem hmem)

/-- A store with a region in which the bodies of closures are pure. -/
structure PureRegion where
  store : Store
  region : Place → Prop
  isRegion : store.IsRegion region
  pure : ∀ {c C}, region (.closure c) → store.closure? c = some C → C.body.IsPure

namespace PureRegion
variable {w w' : PureRegion} {e body : Value} {a : ScopeId}

/-- A later region includes the earlier one, and the earlier scopes are as they were. -/
structure Extends (w w' : PureRegion) : Prop where
  intact : w.store.IntactIn w'.store
  region : ∀ {x}, w.region x → w'.region x

instance : Preorder PureRegion where
  le := Extends
  le_refl _ := ⟨.refl, id⟩
  le_trans _ _ _ h h' := ⟨h.intact.trans h'.intact, fun hx => h'.region (h.region hx)⟩

/-- Pure code of the region. -/
structure MayRun (w : PureRegion) (e : Value) (a : ScopeId) : Prop where
  scope : w.region (.scope a)
  inside : e.Inside w.region
  pure : e.IsPure

theorem MayRun.mono (h : w.MayRun e a) (hw : w ≤ w') : w'.MayRun e a :=
  ⟨hw.region h.scope, h.inside.mono fun _ => hw.region, h.pure⟩

theorem MayRun.item {items : List Value} (h : w.MayRun (.list items) a) {item : Value}
    (hitem : item ∈ items) : w.MayRun item a :=
  ⟨h.scope, Value.inside_list_iff.1 h.inside item hitem, h.pure.item hitem⟩

/-- A scope in the region gets a new one inside. -/
def addScope (w : PureRegion) (ha : w.region (.scope a)) {own : Bindings Value}
    (hown : ∀ name v, own.get? name = some v → v.Inside w.region) : PureRegion where
  store := (w.store.addScope (some a) own).2
  region x := w.region x ∨ x = .scope (w.store.addScope (some a) own).1
  isRegion := w.isRegion.addScope (fun _ hp => Option.some.inj hp ▸ ha) hown
  pure := by
    rintro c C (hc | hc) hC
    · exact w.pure hc hC
    · cases hc

/-- Pure code becomes the body of a closure. -/
def addClosure (w : PureRegion) (h : w.MayRun body a) (params : List String) : PureRegion where
  store := (w.store.addClosure ⟨params, body, a⟩).2
  region x := w.region x ∨ x = .closure (w.store.addClosure ⟨params, body, a⟩).1
  isRegion := w.isRegion.addClosure h.scope h.inside
  pure {c C} hc hC := by
    rw [Store.closure?_addClosure] at hC
    split at hC
    · exact Option.some.inj hC ▸ h.pure
    · next hold => exact w.pure (hc.resolve_right fun heq => hold (Place.closure.inj heq)) hC

/-- One store on both sides, where what is in the region corresponds to itself. -/
def correspondence : Correspondence PureRegion where
  left := store
  right := store
  value w v v' := v = v' ∧ v.Inside w.region
  code w e a e' b := e = e' ∧ a = b ∧ w.MayRun e a

theorem later_addScope (h : w.region (.scope a)) (he : e.Inside w.region) (hpure : e.IsPure)
    {own : Bindings Value} (hown : ∀ name v, own.get? name = some v → v.Inside w.region) :
    correspondence.Later w (w.store.addScope (some a) own).2 (w.store.addScope (some a) own).2
      fun w' => correspondence.code w' e (w.store.addScope (some a) own).1 e
        (w.store.addScope (some a) own).1 :=
  ⟨w.addScope h hown, ⟨.addScope .., .inl⟩, rfl, rfl, rfl, rfl, .inr rfl, he.mono fun _ => .inl,
    hpure⟩

/-- Purity is a simulation of each store by itself. -/
def simulation : Simulation PureRegion where
  toCorrespondence := correspondence
  value_mono hw h := ⟨h.1, h.2.mono fun _ => hw.region⟩
  code_mono hw h := ⟨h.1, h.2.1, h.2.2.mono hw⟩
  alike := by
    rintro w v _ ⟨rfl, -⟩
    exact .refl fun _ _ => rfl
  code_value h := ⟨h.1, h.2.2.inside⟩
  code_items := by
    rintro w items a _ _ ⟨heq, rfl, h⟩
    obtain rfl := Value.list.inj heq
    exact List.forall₂_same.2 fun item hitem => ⟨rfl, rfl, h.item hitem⟩
  number _ := ⟨rfl, nofun⟩
  boolean _ := ⟨rfl, nofun⟩
  gather := by
    rintro w name args args' - h
    obtain ⟨rfl, hinside⟩ := forall₂_eq_and_iff.1 h
    exact ⟨rfl, Value.inside_list_iff.2 hinside⟩
  lookup := by
    rintro w name a _ ⟨-, rfl, h⟩ -
    exact rel_eq_and_self fun _ => w.isRegion.inside_of_get? h.scope
  -- code that defines or assigns mentions the keyword
  define h _ _ := absurd (h.2.2.pure.item List.mem_cons_self).define (not_not.2 (Value.mem_self _))
  assign h _ _ := absurd (h.2.2.pure.item List.mem_cons_self).assign (not_not.2 (Value.mem_self _))
  child := by
    rintro w e a _ _ own _ ⟨rfl, rfl, h⟩ hown -
    obtain ⟨rfl, hinside⟩ := hown.eq
    exact later_addScope h.scope h.inside h.pure hinside
  lambda := by
    rintro w targets body a targets' body' _ params ⟨heq, rfl, h⟩ - -
    obtain ⟨rfl, rfl⟩ : targets = targets' ∧ body = body' := by simpa using heq
    have hbody : w.MayRun body a := h.item (by simp)
    refine ⟨w.addClosure hbody params, ⟨.addClosure .., .inl⟩, rfl, rfl, rfl, fun c hc => .inr ?_⟩
    obtain rfl : c = _ := by simpa using hc
    rfl
  call := by
    rintro w c _ C D ⟨heq, hinside⟩ hC hD args args' hargs -
    obtain rfl : c = _ := by simpa using heq
    obtain rfl := Option.some.inj (hC ▸ hD)
    obtain ⟨heq, hown⟩ := (Bindings.Related.ofList_zip C.params hargs).eq
    have hc := hinside c (Value.mem_self _)
    rw [← heq]
    exact later_addScope (w.isRegion.closed hc (.link (.captured hC)))
      (fun d hd => w.isRegion.closed hc (.body hC hd)) (w.pure hc hC) hown

/-- Evaluation of pure code writes to none of the scopes that are there. -/
theorem MayRun.intactIn (h : w.MayRun e a) {depth : Nat} {r : Except EvalError Value} {t : Store}
    (hends : Evaluator.within depth e a w.store = .ended r t) : w.store.IntactIn t := by
  have hrun := Simulation.respects_within (S := simulation) depth ⟨rfl, rfl, h⟩
  change correspondence.OutcomesAgree _ _ (Evaluator.within depth e a w.store) _ at hrun
  rw [hends] at hrun
  obtain ⟨w', hw', rfl⟩ := hrun.exists_left
  exact hw'.intact

end PureRegion

/-! ### Once more -/

/-- The scopes that a later store has in addition. -/
def Store.added (s t : Store) : List ScopeId :=
  ((List.range t.scopes.size).map ScopeId.mk).filter fun a => ¬ s.Has a

theorem Store.mem_added_iff {s t : Store} {a : ScopeId} :
    a ∈ s.added t ↔ t.Has a ∧ ¬ s.Has a := by
  obtain ⟨i⟩ := a
  simp [added, Has]

/-- The additional scopes of a later store, as slack. -/
def Slack.added (s t : Store) : Slack where
  scopes := s.added t
  names := (s.added t).flatMap t.ownNames

namespace Pairing
variable {s t : Store} {e : Value} {a : ScopeId}

/-- A store beside a later one in which it is intact. -/
def ofIntact (hs : s.WellFormed) (hst : s.IntactIn t) : Pairing (.added s t) :=
  ofIncluded hs hst.le (fun _ => hst.scope) (fun _ => Store.mem_added_iff.1)
    fun b hb _ hown => List.mem_flatMap.2 ⟨b, hb, Store.mem_ownNames_iff.2 hown⟩

theorem spans_ofIntact (hs : s.WellFormed) (hst : s.IntactIn t) : (ofIntact hs hst).Spans s where
  scope _ hb := ⟨rfl, hb⟩
  closure _ hc := ⟨rfl, hc⟩
  left b hb := ⟨b, rfl, hb⟩
  right b hb := by
    by_cases hold : s.Has b
    · exact .inr ⟨b, rfl, hold⟩
    · exact .inl (Store.mem_added_iff.2 ⟨hb, hold⟩)

/-- An evaluation whose store is intact in what it leaves ends the same way when it is repeated. -/
theorem exists_ended_again (hs : s.WellFormed) (ha : s.Has a) (he : s.Closed e)
    (hst : s.IntactIn t) {depth : Nat} {r : Except EvalError Value}
    (hends : Evaluator.within depth e a s = .ended r t) :
    ∃ r' u, Evaluator.within depth e a t = .ended r' u ∧ Corresponds (.added s t) s r t r' u := by
  have hfits : (ofIntact hs hst).Fits (.added s t) e a e a :=
    Pairs.fits_same hst.le (fun _ hb => (Store.mem_added_iff.1 hb).2) ha he
  have hrun := Simulation.respects_within (S := simulation _) depth hfits
  change (correspondence _).OutcomesAgree _ _ (Evaluator.within depth e a s)
    (Evaluator.within depth e a t) at hrun
  rw [hends] at hrun
  rcases hrun.cases with ⟨hdeep, -⟩ | ⟨_, _, r', u, hleft, hright, W, hW, rfl, rfl, hresults⟩
  · exact absurd hdeep.symm Outcome.tooDeep_ne_ended
  · obtain ⟨rfl, ht⟩ := Outcome.ended_inj.1 hleft
    exact ⟨r', _, hright, W, ht.symm, rfl, (spans_ofIntact hs hst).mono hW, hresults⟩

end Pairing

/-- What is reached from pure code, where all closures are pure. -/
def PureRegion.ofCode {s : Store} (hs : s.WellFormed) {a : ScopeId} (ha : s.Has a) {e : Value}
    (he : s.Closed e)
    (hclosures : ∀ c C, Place.Reached s.Refers (Place.ofCode e a) (.closure c) →
      s.closure? c = some C → C.body.IsPure) : PureRegion where
  store := s
  region := Place.Reached s.Refers (Place.ofCode e a)
  isRegion := hs.isRegion_reached (Store.hasPlace_of_ofCode ha he)
  pure := hclosures _ _

/-- Evaluation of code that mentions neither definition nor assignment leaves every scope as it was, if
no closure that is reached from the code mentions them. Then a second evaluation ends with the same
error, or with the same value up to the identity of what was made in the meantime. -/
theorem evaluates_again_of_isPure {s t : Store} (hs : s.WellFormed) {a : ScopeId} (ha : s.Has a)
    {e : Value} (he : s.Closed e) (hpure : e.IsPure)
    (hclosures : ∀ c C, Place.Reached s.Refers (Place.ofCode e a) (.closure c) →
      s.closure? c = some C → C.body.IsPure)
    {r : Except EvalError Value} (h : Evaluates e a s r t) :
    (∀ b, s.Has b → t.scope? b = s.scope? b) ∧
      ∃ r' u, Evaluates e a t r' u ∧ Corresponds (.added s t) s r t r' u := by
  obtain ⟨depth, hends⟩ := h.eventually.exists
  have hrun : (PureRegion.ofCode hs ha he hclosures).MayRun e a :=
    ⟨.of_start rfl, fun _ hc => .of_start hc, hpure⟩
  have hst : s.IntactIn t := hrun.intactIn hends
  obtain ⟨r', u, hagain, hsame⟩ := Pairing.exists_ended_again hs ha he hst hends
  exact ⟨fun b => hst.scope, r', u, Evaluator.within_sound depth hagain, hsame⟩

namespace Store

/-- A root that binds `constant` to a closure, which makes a closure that answers its argument. -/
def constants : Store :=
  ((empty.addScope none .empty).2.addClosure
    ⟨["x"], .list [.symbol "lambda", .list [], .symbol "x"], ⟨0⟩⟩).2.define ⟨0⟩ "constant"
      (.procedure (.closure ⟨0⟩))

theorem wellFormed_constants : constants.WellFormed := by
  have hroot : (empty.addScope none .empty).2.WellFormed := WellFormed.empty.addScope nofun nofun
  have hclosure : ((empty.addScope none .empty).2.addClosure
      ⟨["x"], .list [.symbol "lambda", .list [], .symbol "x"], ⟨0⟩⟩).2.WellFormed :=
    hroot.addClosure (by decide) (by simp [Closed])
  exact hclosure.define _ _ (closed_closure_iff.2 (hasClosure_addClosure ..))

theorem isPure_of_constants {c : ClosureId} {C : Closure} (h : constants.closure? c = some C) :
    C.body.IsPure := by
  rw [constants, closure?_define, closure?_addClosure] at h
  split at h
  · obtain rfl := Option.some.inj h
    exact ⟨by simp [Form.keyword], by simp [Form.keyword]⟩
  · cases h

/-- The call makes a scope and a closure, each time. -/
theorem evaluates_again_of_isPure_of_constants :
    ∃ e r t, e = .list [.symbol "constant", .number 1] ∧ constants.WellFormed ∧ constants.Has ⟨0⟩ ∧
      constants.Closed e ∧ e.IsPure ∧
      (∀ c C, Place.Reached constants.Refers (Place.ofCode e ⟨0⟩) (.closure c) →
        constants.closure? c = some C → C.body.IsPure) ∧
      Evaluates e ⟨0⟩ constants r t ∧ constants.added t = [⟨1⟩] ∧
      t.closures.size = constants.closures.size + 1 ∧
      (∀ b, constants.Has b → t.scope? b = constants.scope? b) ∧
      ∃ r' u, Evaluates e ⟨0⟩ t r' u ∧ Corresponds (.added constants t) constants r t r' u := by
  have hshown : ((Evaluator.within 5 (.list [.symbol "constant", .number 1]) ⟨0⟩
      constants).answer?.map fun shown => (constants.added shown.2, shown.2.closures.size)) =
        some ([⟨1⟩], 2) := by decide +kernel
  obtain ⟨⟨_, t⟩, hanswer, hmade⟩ := Option.map_eq_some_iff.1 hshown
  obtain ⟨r, hends⟩ := Outcome.exists_ended_of_answer? hanswer
  obtain ⟨hscopes, hclosures⟩ := Prod.mk.inj hmade
  have hpure : (Value.list [.symbol "constant", .number 1]).IsPure :=
    ⟨by simp [Form.keyword], by simp [Form.keyword]⟩
  have heval := Evaluator.within_sound 5 hends
  exact ⟨_, r, t, rfl, wellFormed_constants, by decide, by simp [Closed], hpure,
    fun _ _ _ => isPure_of_constants, heval, hscopes, hclosures,
    evaluates_again_of_isPure wellFormed_constants (by decide) (by simp [Closed]) hpure
      (fun _ _ _ => isPure_of_constants) heval⟩

theorem isPure_callOf (c : ClosureId) : (callOf c).IsPure :=
  ⟨by simp [callOf], by simp [callOf]⟩

theorem isPure_of_callers {c : ClosureId} (hc : c = ⟨1⟩ ∨ c = ⟨2⟩) {C : Closure}
    (h : callers.closure? c = some C) : C.body.IsPure := by
  rcases callers_closure? h with ⟨rfl, -⟩ | ⟨-, rfl⟩ | ⟨-, rfl⟩
  · simp at hc
  · exact ⟨by simp, by simp⟩
  · exact ⟨by simp [Form.keyword], by simp [Form.keyword]⟩

/-- It is not enough that the closures are pure which are linked to the code, nor that those are which
are reached from its scope or stand in it: both calls assign a binding. -/
theorem own?_changes_beyond_contained :
    callers.WellFormed ∧ callers.Has ⟨0⟩ ∧ callers.Has ⟨1⟩ ∧
      callers.own? ⟨0⟩ "x" = some (.number 1) ∧
      ((callOf ⟨1⟩).IsPure ∧
        (∀ c C, Place.Reached callers.Links (Place.ofCode (callOf ⟨1⟩) ⟨1⟩) (.closure c) →
          callers.closure? c = some C → C.body.IsPure) ∧
        ∃ r t, Evaluator.within 5 (callOf ⟨1⟩) ⟨1⟩ callers = .ended r t ∧
          t.own? ⟨0⟩ "x" = some (.number 2)) ∧
      ((callOf ⟨2⟩).IsPure ∧
        (∀ c C, Place.Reached callers.Refers (· = .scope ⟨1⟩) (.closure c) ∨
            Value.procedure (.closure c) ∈ callOf ⟨2⟩ →
          callers.closure? c = some C → C.body.IsPure) ∧
        ∃ r t, Evaluator.within 5 (callOf ⟨2⟩) ⟨1⟩ callers = .ended r t ∧
          t.own? ⟨0⟩ "x" = some (.number 2)) := by
  refine ⟨wellFormed_callers, by decide, by decide, by decide +kernel,
    ⟨isPure_callOf _, fun c C hreached hC => isPure_of_callers (.inl ?_) hC,
      callers_within ⟨1⟩ (.inl rfl) ⟨1⟩ (.inr rfl)⟩,
    isPure_callOf _, fun c C hc hC => isPure_of_callers (.inr ?_) hC,
    callers_within ⟨2⟩ (.inr rfl) ⟨1⟩ (.inr rfl)⟩
  · simpa using callers_reached_links hreached
  · refine hc.elim (fun hreached => ?_) mem_callOf_iff.1
    -- nothing is reached from the second root but itself
    have hroot := hreached.induction (P := (· = .scope ⟨1⟩)) (fun _ => id) ?_
    · cases hroot
    · rintro _ y rfl hxy
      rcases callers_refers hxy with hxy | ⟨h, -⟩
      · simpa using callers_links hxy
      · cases h

end Store
end ScopedLisp
