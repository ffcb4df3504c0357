import ScopedLisp.Proofs.Pairing.Simulation
import ScopedLisp.Proofs.Scopes.Reachable
import ScopedLisp.Proofs.Scopes.Region

/-! # Footprints

What is reached from an expression and its scope is the footprint of its evaluation: it leaves every
older scope outside as it was, however it ends. The same holds for the application of a procedure.
Everything in a region can be its own partner, so a store is paired with itself, and the frame of that
pairing is what lies outside the region. -/

namespace ScopedLisp

namespace Pairs
variable {s : Store} {region : Place → Prop} {e : Value} {a : ScopeId}

/-- A store beside itself, where everything in a region is its own partner. -/
def ofRegion (s : Store) (region : Place → Prop) : Pairs where
  left := s
  right := s
  scope a b := a = b ∧ region (.scope a)
  closure c d := c = d ∧ region (.closure c)

theorem stand_ofRegion (h : s.IsRegion region) (ha : region (.scope a)) :
    (ofRegion s region).Stand ∅ a a :=
  stand_empty_iff.2 ⟨h.has ha, h.has ha,
    List.forall₂_same.2 fun b hb => ⟨rfl, h.of_mem_chain ha b hb⟩⟩

theorem alike_ofRegion (he : e.Inside region) : e.Alike (ofRegion s region).closure e :=
  .refl fun c hc => ⟨rfl, he c hc⟩

/-- Code fits in a region if its scope and its closures are there. -/
theorem fits_ofRegion (h : s.IsRegion region) (ha : region (.scope a))
    (he : e.Inside region) : (ofRegion s region).Fits ∅ e a e a :=
  (stand_ofRegion h ha).fits (alike_ofRegion he)

end Pairs

namespace Pairing
variable {s : Store} {region : Place → Prop}

/-- A store paired with itself in a region. -/
def ofRegion (h : s.IsRegion region) : Pairing ∅ where
  toPairs := .ofRegion s region
  scope_unique := by
    rintro a _ b _ ⟨rfl, -⟩ ⟨rfl, -⟩
    rfl
  closure_unique := by
    rintro c _ d _ ⟨rfl, -⟩ ⟨rfl, -⟩
    rfl
  stand := by
    rintro a _ ⟨rfl, ha⟩
    exact Pairs.stand_ofRegion h ha
  contents := by
    rintro a _ ⟨rfl, ha⟩
    obtain ⟨scope, hscope⟩ := Store.has_iff.1 (h.has ha)
    refine ⟨scope, scope, hscope, hscope, .self fun name v hvalue => ?_⟩
    have hown : s.own? a name = some v := (Store.own?_of_scope? hscope name).trans hvalue
    exact Pairs.alike_ofRegion fun c hc => h.closed ha (.link (.bound hown hc))
  parts := by
    rintro c _ ⟨rfl, hc⟩
    obtain ⟨C, hC⟩ := Store.hasClosure_iff.1 (h.has hc)
    exact ⟨C, C, hC, hC, rfl, Pairs.fits_ofRegion h (h.closed hc (.link (.captured hC)))
      fun d hd => h.closed hc (.body hC hd)⟩
  slack_unpaired := nofun
  slack_own := nofun

/-- A computation that starts in a region and agrees with itself leaves everything old outside of it
as it was. -/
theorem frame_of_agree (h : s.IsRegion region) {α : Type} {R : Pairing ∅ → α → α → Prop}
    {x : Eval α} (hx : (correspondence ∅).Agree (ofRegion h) R x x) {r : Except EvalError α}
    {t : Store} (hends : x s = .ended r t) {b : ScopeId} (hb : s.Has b)
    (hout : ¬ region (.scope b)) : t.scope? b = s.scope? b := by
  change (correspondence ∅).OutcomesAgree _ _ (x s) (x s) at hx
  rw [hends] at hx
  obtain ⟨W, hW, rfl⟩ := hx.exists_left
  exact hW.left.frame hb fun ⟨_, _, hregion⟩ => hout hregion

end Pairing

namespace Store
variable {s : Store}

/-- As long as there are no closures in code, it makes no difference whether code counts. -/
theorem refers_eq_links
    (hcode : ∀ c C, s.closure? c = some C → ∀ d, Value.procedure (.closure d) ∉ C.body) :
    s.Refers = s.Links := by
  ext x y
  constructor
  · intro h
    cases h with
    | link h => exact h
    | body known mem => exact absurd mem (hcode _ _ known _)
  · exact .link

/-- Evaluation leaves every scope as it was that is not reached from the scope and the expression, and
application does so with every scope that is not reached from the procedure and its arguments. -/
theorem scope?_eq_of_not_reached (hs : s.WellFormed) {b : ScopeId} (hb : s.Has b) :
    (∀ {e a depth r t}, s.Has a → s.Closed e → Evaluator.within depth e a s = .ended r t →
      ¬ Place.Reached s.Refers (Place.ofCode e a) (.scope b) → t.scope? b = s.scope? b) ∧
    (∀ {p args depth r t}, (∀ v ∈ Value.procedure p :: args, s.Closed v) →
      Procedure.apply (Evaluator.within depth) p args s = .ended r t →
      ¬ Place.Reached s.Refers (Place.ofValues (.procedure p :: args)) (.scope b) →
      t.scope? b = s.scope? b) ∧
    ((∀ c C, s.closure? c = some C → ∀ d, Value.procedure (.closure d) ∉ C.body) →
      ∀ start x, Place.Reached s.Refers start x ↔ Place.Reached s.Links start x) := by
  have hev (depth : Nat) : (Pairing.simulation ∅).Respects (Evaluator.within depth) :=
    Simulation.respects_within depth
  refine ⟨fun {e a depth r t} ha he hends hout => ?_, fun {p args depth r t} hargs hends hout => ?_,
    fun hcode _ _ => by rw [refers_eq_links hcode]⟩
  -- in both cases what runs corresponds to itself in the region that is reached
  · have hregion := hs.isRegion_reached (hasPlace_of_ofCode ha he)
    refine Pairing.frame_of_agree hregion (hev depth ?_) hends hb hout
    exact Pairs.fits_ofRegion hregion (.of_start rfl) fun c hc => .of_start hc
  · have hregion := hs.isRegion_reached (hasPlace_of_ofValues hargs)
    have halike : ∀ v ∈ Value.procedure p :: args,
        v.Alike (Pairing.ofRegion hregion).closure v :=
      fun v hv => Pairs.alike_ofRegion fun c hc => .of_start ⟨v, hv, hc⟩
    obtain ⟨hp, hargs⟩ := List.forall_mem_cons.1 halike
    exact Pairing.frame_of_agree hregion ((hev depth).apply hp (List.forall₂_same.2 hargs)) hends hb
      hout

/-- Two roots. The first one binds `x`, and `f` to a closure that assigns `x`. Two more closures call
that one: the one made in the second root has it in its code, the one made in the first root finds it
under its name. -/
def callers : Store where
  scopes := #[⟨none, .ofList [("f", .procedure (.closure ⟨0⟩)), ("x", .number 1)]⟩, ⟨none, .empty⟩]
  closures := #[⟨[], .list [.symbol "set!", .symbol "x", .number 2], ⟨0⟩⟩,
    ⟨[], .list [.procedure (.closure ⟨0⟩)], ⟨1⟩⟩, ⟨[], .list [.symbol "f"], ⟨0⟩⟩]

theorem callers_parent? (a : ScopeId) : callers.parent? a = none := by
  cases ha : callers.scope? a with
  | none => simp [parent?, ha]
  | some scope =>
    have hmem := Array.mem_of_getElem? ha
    have hroot : scope.parent = none := by
      rcases (by simpa [callers] using hmem) with rfl | rfl <;> rfl
    simp [parent?, ha, hroot]

theorem callers_own? {a : ScopeId} {name : String} {v : Value} (h : callers.own? a name = some v) :
    a = ⟨0⟩ ∧ (v = .procedure (.closure ⟨0⟩) ∨ v = .number 1) := by
  match a with
  | ⟨0⟩ =>
    have hmem := Bindings.mem_of_get?_ofList h
    refine ⟨rfl, ?_⟩
    rcases (by simpa using hmem) with ⟨-, rfl⟩ | ⟨-, rfl⟩
    · exact .inl rfl
    · exact .inr rfl
  | ⟨1⟩ => cases h
  | ⟨i + 2⟩ => cases h

theorem callers_closure? {c : ClosureId} {C : Closure} (h : callers.closure? c = some C) :
    c = ⟨0⟩ ∧ C = ⟨[], .list [.symbol "set!", .symbol "x", .number 2], ⟨0⟩⟩ ∨
      c = ⟨1⟩ ∧ C = ⟨[], .list [.procedure (.closure ⟨0⟩)], ⟨1⟩⟩ ∨
      c = ⟨2⟩ ∧ C = ⟨[], .list [.symbol "f"], ⟨0⟩⟩ := by
  match c with
  | ⟨0⟩ => exact .inl ⟨rfl, (Option.some.inj h).symm⟩
  | ⟨1⟩ => exact .inr (.inl ⟨rfl, (Option.some.inj h).symm⟩)
  | ⟨2⟩ => exact .inr (.inr ⟨rfl, (Option.some.inj h).symm⟩)
  | ⟨i + 3⟩ => cases h

theorem callers_links {x y : Place} (h : callers.Links x y) :
    x = .scope ⟨0⟩ ∧ y = .closure ⟨0⟩ ∨ x = .closure ⟨0⟩ ∧ y = .scope ⟨0⟩ ∨
      x = .closure ⟨1⟩ ∧ y = .scope ⟨1⟩ ∨ x = .closure ⟨2⟩ ∧ y = .scope ⟨0⟩ := by
  cases h with
  | parent outer => exact nomatch (callers_parent? _).symm.trans outer
  | bound own mem =>
    obtain ⟨rfl, rfl | rfl⟩ := callers_own? own
    · obtain rfl : _ = _ := by simpa using mem
      simp
    · simp at mem
  | captured known => rcases callers_closure? known with ⟨rfl, rfl⟩ | ⟨rfl, rfl⟩ | ⟨rfl, rfl⟩ <;> simp

theorem callers_refers {x y : Place} (h : callers.Refers x y) :
    callers.Links x y ∨ x = .closure ⟨1⟩ ∧ y = .closure ⟨0⟩ := by
  cases h with
  | link h => exact .inl h
  | body known mem =>
    rcases callers_closure? known with ⟨rfl, rfl⟩ | ⟨rfl, rfl⟩ | ⟨rfl, rfl⟩
    · simp at mem
    · exact .inr ⟨rfl, by simpa using mem⟩
    · simp at mem

theorem wellFormed_callers : callers.WellFormed where
  parent h := nomatch (callers_parent? _).symm.trans h
  bound h := by
    rcases callers_own? h with ⟨-, rfl | rfl⟩
    · exact closed_closure_iff.2 (by decide)
    · exact nofun
  captured h := by
    rcases callers_closure? h with ⟨-, rfl⟩ | ⟨-, rfl⟩ | ⟨-, rfl⟩
    · exact ⟨by decide, by simp [Closed]⟩
    · exact ⟨by decide, closed_list_iff.2 (by simp [closed_closure_iff, HasClosure, callers])⟩
    · exact ⟨by decide, by simp [Closed]⟩

/-- The expression that calls a closure without arguments. -/
def callOf (c : ClosureId) : Value := .list [.procedure (.closure c)]

theorem mem_callOf_iff {c d : ClosureId} : Value.procedure (.closure d) ∈ callOf c ↔ d = c := by
  simp [callOf]

theorem closed_callOf {s : Store} {c : ClosureId} (hc : s.HasClosure c) : s.Closed (callOf c) :=
  fun _ hd => mem_callOf_iff.1 hd ▸ hc

/-- A call of one of the two calling closures in the second root assigns the binding in the first. -/
theorem callers_within (c : ClosureId) (hc : c = ⟨1⟩ ∨ c = ⟨2⟩) (a : ScopeId) (ha : a = ⟨0⟩ ∨ a = ⟨1⟩) :
    ∃ r t, Evaluator.within 5 (callOf c) a callers = .ended r t ∧
      t.own? ⟨0⟩ "x" = some (.number 2) := by
  have hshown : ((Evaluator.within 5 (callOf c) a callers).answer?.map
      fun shown => shown.2.own? ⟨0⟩ "x") = some (some (.number 2)) := by
    rcases hc with rfl | rfl <;> rcases ha with rfl | rfl <;> decide +kernel
  obtain ⟨⟨_, t⟩, hanswer, hx⟩ := Option.map_eq_some_iff.1 hshown
  obtain ⟨r, hends⟩ := Outcome.exists_ended_of_answer? hanswer
  exact ⟨r, t, hends, hx⟩

/-- From the first root the closure made there does not reach the second root, and its call leaves the
second root as it was. -/
theorem scope?_eq_of_not_reached_of_callers :
    callers.WellFormed ∧ callers.Has ⟨1⟩ ∧
      ¬ Place.Reached callers.Refers (Place.ofCode (callOf ⟨2⟩) ⟨0⟩) (.scope ⟨1⟩) ∧
      ∃ r t, Evaluator.within 5 (callOf ⟨2⟩) ⟨0⟩ callers = .ended r t ∧
        t.own? ⟨0⟩ "x" = some (.number 2) ∧ t.scope? ⟨1⟩ = callers.scope? ⟨1⟩ := by
  have hout : ¬ Place.Reached callers.Refers (Place.ofCode (callOf ⟨2⟩) ⟨0⟩) (.scope ⟨1⟩) := by
    intro h
    have hnear := h.induction (P := fun x => x ≠ .scope ⟨1⟩ ∧ x ≠ .closure ⟨1⟩) ?_ ?_
    · exact hnear.1 rfl
    · rintro (b | c) hx <;> simp_all [Place.ofCode, callOf]
    · rintro x y hx hxy
      rcases callers_refers hxy with hxy | ⟨rfl, -⟩
      · rcases callers_links hxy with ⟨-, rfl⟩ | ⟨-, rfl⟩ | ⟨rfl, -⟩ | ⟨-, rfl⟩ <;> simp_all
      · exact absurd rfl hx.2
  obtain ⟨r, t, hends, hx⟩ := callers_within ⟨2⟩ (.inr rfl) ⟨0⟩ (.inl rfl)
  exact ⟨wellFormed_callers, by decide, hout, r, t, hends, hx,
    (scope?_eq_of_not_reached wellFormed_callers (by decide)).1 (by decide)
      (closed_callOf (by decide)) hends hout⟩

/-- Along links, a call of the closure made in the second root stays there. -/
theorem callers_reached_links {x : Place}
    (h : Place.Reached callers.Links (Place.ofCode (callOf ⟨1⟩) ⟨1⟩) x) :
    x = .scope ⟨1⟩ ∨ x = .closure ⟨1⟩ := by
  refine h.induction (P := fun x => x = .scope ⟨1⟩ ∨ x = .closure ⟨1⟩) ?_ ?_
  · rintro (b | c) hx <;> simp_all [Place.ofCode, callOf]
  · rintro x y hx hxy
    rcases callers_links hxy with ⟨rfl, -⟩ | ⟨rfl, -⟩ | ⟨-, rfl⟩ | ⟨rfl, -⟩ <;> simp_all

/-- The closures in code count: the closure made in the second root has no link to the first root, but
its call assigns a binding there. -/
theorem own?_changes_beyond_links :
    callers.WellFormed ∧ callers.Has ⟨0⟩ ∧ callers.Has ⟨1⟩ ∧ callers.Closed (callOf ⟨1⟩) ∧
      ¬ Place.Reached callers.Links (Place.ofCode (callOf ⟨1⟩) ⟨1⟩) (.scope ⟨0⟩) ∧
      callers.own? ⟨0⟩ "x" = some (.number 1) ∧
      ∃ r t, Evaluator.within 5 (callOf ⟨1⟩) ⟨1⟩ callers = .ended r t ∧
        t.own? ⟨0⟩ "x" = some (.number 2) := by
  refine ⟨wellFormed_callers, by decide, by decide, closed_callOf (by decide), fun h => ?_,
    by decide +kernel, callers_within ⟨1⟩ (.inl rfl) ⟨1⟩ (.inr rfl)⟩
  simpa using callers_reached_links h

end Store
end ScopedLisp
