import Mathlib.Logic.Relation
import ScopedLisp.Proofs.Scopes.WellFormed

/-! # References and regions

Scopes and closures refer to one another: a scope to its parent and to the closures in what it binds,
a closure to the scope it was made in and to the closures in its code. A region is closed under these
references, as what is reached from somewhere is. When something new refers to a region only, it can
join it, since what was there does not refer to anything new. -/

namespace ScopedLisp

/-- A scope or a closure of a store. -/
inductive Place where
  | scope (a : ScopeId)
  | closure (c : ClosureId)

namespace Store

/-- References of scopes, and of closures to the scopes they were made in. -/
inductive Links (s : Store) : Place → Place → Prop
  | parent {a p} (outer : s.parent? a = some p) : Links s (.scope a) (.scope p)
  | bound {a name v c} (own : s.own? a name = some v)
      (mem : Value.procedure (.closure c) ∈ v) : Links s (.scope a) (.closure c)
  | captured {c C} (known : s.closure? c = some C) : Links s (.closure c) (.scope C.scope)

/-- All references, those of closures to the closures in their code among them. -/
inductive Refers (s : Store) : Place → Place → Prop
  | link {x y} (link : s.Links x y) : Refers s x y
  | body {c C d} (known : s.closure? c = some C)
      (mem : Value.procedure (.closure d) ∈ C.body) : Refers s (.closure c) (.closure d)

/-- Whether what stands at a place was made. -/
def HasPlace (s : Store) : Place → Prop
  | .scope a => s.Has a
  | .closure c => s.HasClosure c

end Store

namespace Place

/-- Where the evaluation of an expression in a scope starts from: the scope, and the closures in the
expression. -/
def ofCode (e : Value) (a : ScopeId) : Place → Prop
  | scope b => b = a
  | closure c => Value.procedure (.closure c) ∈ e

/-- The closures in some values. -/
def ofValues (values : List Value) : Place → Prop
  | scope _ => False
  | closure c => ∃ v ∈ values, Value.procedure (.closure c) ∈ v

/-- What is reached from the places of a start along references. -/
def Reached (refers : Place → Place → Prop) (start : Place → Prop) (x : Place) : Prop :=
  ∃ root, start root ∧ Relation.ReflTransGen refers root x

variable {refers : Place → Place → Prop} {start : Place → Prop} {x y : Place}

theorem Reached.of_start (h : start x) : Reached refers start x := ⟨x, h, .refl⟩

theorem Reached.tail (h : Reached refers start x) (hxy : refers x y) : Reached refers start y :=
  let ⟨root, hroot, hx⟩ := h
  ⟨root, hroot, hx.tail hxy⟩

/-- What holds at a start and is kept along references holds of all that is reached. -/
theorem Reached.induction {P : Place → Prop} (h : Reached refers start x)
    (hstart : ∀ x, start x → P x) (hrefers : ∀ x y, P x → refers x y → P y) : P x := by
  obtain ⟨root, hroot, hx⟩ := h
  induction hx with
  | refl => exact hstart root hroot
  | tail _ hxy ih => exact hrefers _ _ ih hxy

end Place

/-- Whether all closures in a value belong to a region. -/
def Value.Inside (v : Value) (region : Place → Prop) : Prop :=
  ∀ c, Value.procedure (.closure c) ∈ v → region (.closure c)

theorem Value.Inside.mono {v : Value} {region region' : Place → Prop} (h : v.Inside region)
    (hregion : ∀ x, region x → region' x) : v.Inside region' :=
  fun c hc => hregion _ (h c hc)

theorem Value.inside_list_iff {items : List Value} {region : Place → Prop} :
    (Value.list items).Inside region ↔ ∀ item ∈ items, item.Inside region :=
  forall_closure_mem_list_iff

/-- Places that exist, with all that they refer to. -/
structure Store.IsRegion (s : Store) (region : Place → Prop) : Prop where
  has : ∀ {x}, region x → s.HasPlace x
  closed : ∀ {x y}, region x → s.Refers x y → region y

namespace Store
variable {s : Store} {region start : Place → Prop} {e v : Value} {a : ScopeId}

/-- What is referred to exists. -/
theorem WellFormed.hasPlace_of_refers (hs : s.WellFormed) {x y : Place} (h : s.Refers x y) :
    s.HasPlace y := by
  cases h with
  | link h =>
    cases h with
    | parent outer => exact Nat.lt_trans (hs.parent outer) (has_of_parent? outer)
    | bound own mem => exact hs.bound own _ mem
    | captured known => exact (hs.captured known).1
  | body known mem => exact (hs.captured known).2 _ mem

/-- What is reached makes up a region. -/
theorem WellFormed.isRegion_reached (hs : s.WellFormed) (hstart : ∀ x, start x → s.HasPlace x) :
    s.IsRegion (Place.Reached s.Refers start) where
  has h := h.induction hstart fun _ _ _ => hs.hasPlace_of_refers
  closed := Place.Reached.tail

theorem hasPlace_of_ofCode (ha : s.Has a) (he : s.Closed e) (x : Place) (h : Place.ofCode e a x) :
    s.HasPlace x := by
  cases x with
  | scope b => exact h ▸ ha
  | closure c => exact he c h

theorem hasPlace_of_ofValues {values : List Value} (hvalues : ∀ v ∈ values, s.Closed v) (x : Place)
    (h : Place.ofValues values x) : s.HasPlace x := by
  cases x with
  | scope b => exact h.elim
  | closure c =>
    obtain ⟨v, hv, hc⟩ := h
    exact hvalues v hv c hc

/-! ### Stores that grow around a region -/

/-- A store in which all of an earlier one is as it was. -/
structure IntactIn (s t : Store) : Prop where
  le : s ≤ t
  scope : ∀ {a}, s.Has a → t.scope? a = s.scope? a

namespace IntactIn
variable {t u : Store}

theorem refl : s.IntactIn s := ⟨le_rfl, fun _ => rfl⟩

theorem trans (hst : s.IntactIn t) (htu : t.IntactIn u) : s.IntactIn u :=
  ⟨le_trans hst.le htu.le, fun ha => (htu.scope (ha.mono hst.le)).trans (hst.scope ha)⟩

theorem addScope (s : Store) (parent : Option ScopeId) (own : Bindings Value) :
    s.IntactIn (s.addScope parent own).2 :=
  ⟨le_addScope s parent own, fun ha => scope?_addScope_of_has ha parent own⟩

theorem addClosure (s : Store) (C : Closure) : s.IntactIn (s.addClosure C).2 :=
  ⟨le_addClosure s C, fun _ => rfl⟩

theorem hasPlace (h : s.IntactIn t) {x : Place} (hx : s.HasPlace x) : t.HasPlace x := by
  cases x with
  | scope a => exact Has.mono hx h.le
  | closure c => exact HasClosure.mono hx h.le

theorem closure (h : s.IntactIn t) {c : ClosureId} (hc : s.HasClosure c) :
    t.closure? c = s.closure? c := by
  obtain ⟨C, hC⟩ := hasClosure_iff.1 hc
  rw [hC, h.le.closure hC]

/-- What was there refers to nothing new. -/
theorem refers (h : s.IntactIn t) {x y : Place} (hx : s.HasPlace x) (hxy : t.Refers x y) :
    s.Refers x y := by
  cases hxy with
  | link hxy =>
    cases hxy with
    | parent outer => exact .link (.parent (by rwa [parent?, h.scope hx] at outer))
    | bound own mem => exact .link (.bound (by rwa [own?, h.scope hx] at own) mem)
    | captured known => exact .link (.captured (h.closure hx ▸ known))
  | body known mem => exact .body (h.closure hx ▸ known) mem

end IntactIn

namespace IsRegion

/-- A region holds the whole chain of each of its scopes. -/
theorem of_mem_chain (h : s.IsRegion region) (ha : region (.scope a)) :
    ∀ b ∈ s.chain a, region (.scope b) :=
  forall_mem_chain (P := fun b => region (.scope b)) ha fun _ _ hparent _ hb =>
    h.closed hb (.link (.parent hparent))

/-- What a name means in a scope of a region is inside. -/
theorem inside_of_get? (h : s.IsRegion region) (ha : region (.scope a)) {name : String}
    (hget : s.get? a name = some v) : v.Inside region := by
  obtain ⟨b, hb, hown⟩ := List.exists_of_findSome?_eq_some hget
  exact fun c hc => h.closed (h.of_mem_chain ha b hb) (.link (.bound hown hc))

/-- Something new that refers to what is in a region joins it. -/
theorem insert {t : Store} (h : s.IsRegion region) (hst : s.IntactIn t) {new : Place}
    (hnew : t.HasPlace new) (hrefs : ∀ x, t.Refers new x → region x) :
    t.IsRegion fun x => region x ∨ x = new where
  has := by
    rintro x (hx | rfl)
    · exact hst.hasPlace (h.has hx)
    · exact hnew
  closed := by
    rintro x y (hx | rfl) hxy
    · exact .inl (h.closed hx (hst.refers (h.has hx) hxy))
    · exact .inl (hrefs y hxy)

theorem addScope (h : s.IsRegion region) {parent : Option ScopeId} {own : Bindings Value}
    (hparent : ∀ p, parent = some p → region (.scope p))
    (hown : ∀ name v, own.get? name = some v → v.Inside region) :
    (s.addScope parent own).2.IsRegion
      fun x => region x ∨ x = .scope (s.addScope parent own).1 := by
  refine h.insert (.addScope ..) (has_addScope ..) fun x hx => ?_
  cases hx with
  | link hx =>
    cases hx with
    | parent outer => exact hparent _ (by simpa [parent?_addScope] using outer)
    | bound hv mem => exact hown _ _ (by simpa [own?_addScope] using hv) _ mem

theorem addClosure (h : s.IsRegion region) {C : Closure} (hscope : region (.scope C.scope))
    (hbody : C.body.Inside region) :
    (s.addClosure C).2.IsRegion fun x => region x ∨ x = .closure (s.addClosure C).1 := by
  have hnew {D : Closure} (known : (s.addClosure C).2.closure? (s.addClosure C).1 = some D) :
      C = D := by simpa [closure?_addClosure] using known
  refine h.insert (.addClosure ..) (hasClosure_addClosure ..) fun x hx => ?_
  cases hx with
  | link hx =>
    cases hx with
    | captured known => exact hnew known ▸ hscope
  | body known mem => exact hbody _ (hnew known ▸ mem)

end IsRegion
end Store
end ScopedLisp
