import Mathlib.Data.Option.Basic
import Mathlib.Order.Defs.PartialOrder
import ScopedLisp.Proofs.Evaluation.Equations
import ScopedLisp.Proofs.Values.Alike

/-! # Simulations

A simulation compares computations that start from two stores. What the two stores have in common at
some moment is a world; worlds have an order, and later worlds belong to later stores. A simulation
says which values correspond and which code may run in which scopes, and it answers for the
primitives: lookup, definition, assignment, new scopes, new closures and the parts of closures lead
from related stores to related stores. With one store on both sides, and equality, a simulation is an
invariant.

Two computations agree if they end the same way: both give up, both fail with one error, or both
answer results that are related; and the stores they leave belong to a later world. A simulation may
also say which texts an error can show. -/

namespace ScopedLisp

/-- Names that can be bound: those of symbols that are neither string literals nor keywords. -/
def IsBindable (name : String) : Prop :=
  Value.isQuotedName name = false ∧ Form.isKeyword name = false

theorem bindableName?_eq_some_iff {target : Value} {name : String} :
    target.bindableName? = some name ↔ target = .symbol name ∧ IsBindable name := by
  cases target with
  | symbol other =>
    simp only [Value.bindableName?, Value.symbol.injEq, IsBindable]
    constructor
    · intro h
      split at h
      · cases h
      · next hplain =>
        obtain rfl := Option.some.inj h
        simpa using hplain
    · rintro ⟨rfl, hquoted, hkeyword⟩
      simp [hquoted, hkeyword]
  | _ => simp [Value.bindableName?]

/-- Sequences related by equality, with a property, are the same. -/
theorem forall₂_eq_and_iff {α : Type} {P : α → Prop} {xs ys : List α} :
    List.Forall₂ (fun x y => x = y ∧ P x) xs ys ↔ xs = ys ∧ ∀ x ∈ xs, P x := by
  constructor
  · intro h
    obtain rfl : xs = ys := List.forall₂_eq_eq_eq ▸ h.imp fun _ _ h => h.1
    exact ⟨rfl, fun x hx => (List.forall₂_same.1 h x hx).2⟩
  · rintro ⟨rfl, h⟩
    exact List.forall₂_same.2 fun x hx => ⟨rfl, h x hx⟩

theorem rel_eq_and_self {α : Type} {P : α → Prop} {x : Option α} (h : ∀ a, x = some a → P a) :
    Option.Rel (fun a b => a = b ∧ P a) x x := by
  cases x with
  | some a => exact .some ⟨rfl, h a rfl⟩
  | none => exact .none

/-- Bindings of the same names to related values. -/
def Bindings.Related {α β : Type} (R : α → β → Prop) (own : Bindings α) (own' : Bindings β) :
    Prop :=
  ∀ name, Option.Rel R (own.get? name) (own'.get? name)

namespace Bindings.Related
variable {α β : Type} {R : α → β → Prop} {own : Bindings α} {own' : Bindings β}

theorem empty : (.empty : Bindings α).Related R .empty := fun _ => .none

theorem self {R : α → α → Prop} (h : ∀ name value, own.get? name = some value → R value value) :
    own.Related R own := by
  intro name
  cases hvalue : own.get? name with
  | some value => exact .some (h name value hvalue)
  | none => exact .none

theorem insert (h : own.Related R own') (name : String) {value : α} {value' : β}
    (hvalue : R value value') : (own.insert name value).Related R (own'.insert name value') := by
  intro key
  rw [Bindings.get?_insert, Bindings.get?_insert]
  split
  · exact .some hvalue
  · exact h key

theorem mono {R' : α → β → Prop} (h : own.Related R own') (hR : ∀ a b, R a b → R' a b) :
    own.Related R' own' := by
  intro name
  have hname := h name
  generalize own.get? name = x, own'.get? name = y at hname ⊢
  cases hname with
  | some hvalue => exact .some (hR _ _ hvalue)
  | none => exact .none

theorem contains_eq (h : own.Related R own') (name : String) :
    own.contains name = own'.contains name := by
  have hname := h name
  rw [contains, contains]
  generalize own.get? name = x, own'.get? name = y at hname ⊢
  cases hname <;> rfl

theorem symm (h : own.Related R own') : own'.Related (fun b a => R a b) own := by
  intro name
  have hname := h name
  generalize own.get? name = x, own'.get? name = y at hname ⊢
  cases hname with
  | some hvalue => exact .some hvalue
  | none => exact .none

theorem trans {γ : Type} {R' : β → γ → Prop} {own'' : Bindings γ} (h : own.Related R own')
    (h' : own'.Related R' own'') : own.Related (fun a c => ∃ b, R a b ∧ R' b c) own'' := by
  intro name
  have hfirst := h name
  have hsecond := h' name
  generalize own.get? name = x, own'.get? name = y, own''.get? name = z at hfirst hsecond ⊢
  cases hfirst with
  | some hvalue =>
    cases hsecond with
    | some hvalue' => exact .some ⟨_, hvalue, hvalue'⟩
  | none =>
    cases hsecond
    exact .none

/-- Bindings are the same if their values are related to themselves only. -/
theorem eq_of {R : α → α → Prop} {other : Bindings α} (h : own.Related R other)
    (hR : ∀ name value value', own.get? name = some value → R value value' → value = value') :
    own = other := by
  refine ext_get? fun name => ?_
  have hname := h name
  have hvalues := hR name
  generalize own.get? name = x, other.get? name = y at hname hvalues ⊢
  cases hname with
  | some hvalue => rw [hvalues _ _ rfl hvalue]
  | none => rfl

/-- Bindings related by equality are the same. -/
theorem eq {P : α → Prop} {other : Bindings α}
    (h : own.Related (fun value value' => value = value' ∧ P value) other) :
    own = other ∧ ∀ name value, own.get? name = some value → P value := by
  have hsame (name : String) : own.get? name = other.get? name ∧
      ∀ value, own.get? name = some value → P value := by
    have hname := h name
    generalize own.get? name = x, other.get? name = y at hname ⊢
    cases hname with
    | some hvalue => exact ⟨congrArg some hvalue.1, fun _ h => Option.some.inj h ▸ hvalue.2⟩
    | none => exact ⟨rfl, nofun⟩
  exact ⟨ext_get? fun name => (hsame name).1, fun name => (hsame name).2⟩

theorem foldl_insert {names : List String} {values : List α} {values' : List β}
    (h : own.Related R own') (hvalues : List.Forall₂ R values values') :
    ((names.zip values).foldl (fun own (name, value) => own.insert name value) own).Related R
      ((names.zip values').foldl (fun own (name, value) => own.insert name value) own') := by
  induction hvalues generalizing names own own' with
  | nil => simpa using h
  | cons first _ ih =>
    cases names with
    | nil => simpa using h
    | cons name names => exact ih (h.insert name first)

/-- The same names bound to related values one by one. -/
theorem ofList_zip (names : List String) {values : List α} {values' : List β}
    (hvalues : List.Forall₂ R values values') :
    (ofList (names.zip values)).Related R (ofList (names.zip values')) :=
  foldl_insert empty hvalues

end Bindings.Related

/-- The texts that the wording of a wrong shape shows. -/
def Malformation.texts : Malformation → List String
  | unbindable text | notPair text | boundTwice text | parameterTwice text => [text]
  | operandCount _ _ | bindingsNotList | parametersNotList => []

/-- The texts that the wording of an error shows: names, and values as they are printed. -/
def EvalError.texts : EvalError → List String
  | unreadable (.trailing text) | unbound text | notCallable text | arity text _ _ => [text]
  | unreadable _ => []
  | notNumber procedure text => [procedure, text]
  | malformed _ fault => fault.texts

/-- The same error, or results that are related. -/
inductive ResultsRelated {α β : Type} (R : α → β → Prop) :
    Except EvalError α → Except EvalError β → Prop
  | ok {a b} (h : R a b) : ResultsRelated R (.ok a) (.ok b)
  | error {cause} : ResultsRelated R (.error cause) (.error cause)

/-- What a simulation consists of: worlds, the two stores of a world, the values that correspond
there, the code that may run there and the texts that an error may show. -/
structure Correspondence (World : Type) where
  left : World → Store
  right : World → Store
  value : World → Value → Value → Prop
  /-- An expression to be run in a scope of the left store, and one for a scope of the right store. -/
  code : World → Value → ScopeId → Value → ScopeId → Prop
  shown : World → String → Prop := fun _ _ => True

namespace Correspondence
variable {World : Type} [Preorder World] (S : Correspondence World)

/-- Two stores belong to a world that comes after another one and of which something holds. -/
def Later (w : World) (s t : Store) (P : World → Prop) : Prop :=
  ∃ w', w ≤ w' ∧ S.left w' = s ∧ S.right w' = t ∧ P w'

/-- Outcomes that end the same way, in stores of a later world. -/
def OutcomesAgree {α β : Type} (w : World) (R : World → α → β → Prop) :
    Outcome α → Outcome β → Prop
  | .ok a s, .ok b t => S.Later w s t fun w' => R w' a b
  | .error cause s, .error cause' t =>
    cause = cause' ∧ S.Later w s t fun w' => ∀ text ∈ cause.texts, S.shown w' text
  | .tooDeep, .tooDeep => True
  | _, _ => False

/-- A name that can be bound and that code mentions in both of two scopes. -/
def MayBind (w : World) (a b : ScopeId) (name : String) : Prop :=
  IsBindable name ∧ S.code w (.symbol name) a (.symbol name) b

/-- Computations that end the same way when they start from the stores of a world. -/
def Agree {α β : Type} (w : World) (R : World → α → β → Prop) (x : Eval α) (y : Eval β) : Prop :=
  S.OutcomesAgree w R (x (S.left w)) (y (S.right w))

variable {S}
variable {α β γ δ : Type} {w : World} {R : World → α → β → Prop} {R' : World → γ → δ → Prop}

theorem Later.refl {P : World → Prop} (h : P w) : S.Later w (S.left w) (S.right w) P :=
  ⟨w, le_rfl, rfl, rfl, h⟩

theorem agree_pure {a : α} {b : β} (h : R w a b) : S.Agree w R (pure a) (pure b) :=
  Later.refl h

theorem agree_fail (cause : EvalError) (h : ∀ text ∈ cause.texts, S.shown w text) :
    S.Agree w R (Eval.fail cause : Eval α) (Eval.fail cause : Eval β) :=
  ⟨rfl, Later.refl h⟩

theorem Later.of_le {w' : World} {s t : Store} {P : World → Prop} (hw : w ≤ w')
    (h : S.Later w' s t P) : S.Later w s t P :=
  let ⟨w'', hw', h⟩ := h
  ⟨w'', le_trans hw hw', h⟩

theorem OutcomesAgree.of_le {w' : World} (hw : w ≤ w') {o : Outcome α} {o' : Outcome β}
    (h : S.OutcomesAgree w' R o o') : S.OutcomesAgree w R o o' := by
  match o, o' with
  | .ok .., .ok .. => exact Later.of_le hw h
  | .error .., .error .. => exact ⟨h.1, Later.of_le hw h.2⟩
  | .tooDeep, .tooDeep => trivial

/-- Outcomes that agree were both given up, or both are results or errors. -/
theorem OutcomesAgree.cases {o : Outcome α} {o' : Outcome β} (h : S.OutcomesAgree w R o o') :
    o = .tooDeep ∧ o' = .tooDeep ∨ ∃ r s r' t, o = .ended r s ∧ o' = .ended r' t ∧
      S.Later w s t fun w' => ResultsRelated (R w') r r' := by
  match o, o' with
  | .ok a s, .ok b t =>
    obtain ⟨w', hw', hs, ht, hab⟩ := h
    exact .inr ⟨.ok a, s, .ok b, t, rfl, rfl, w', hw', hs, ht, .ok hab⟩
  | .error cause s, .error _ t =>
    obtain ⟨rfl, w', hw', hs, ht, -⟩ := h
    exact .inr ⟨.error cause, s, .error cause, t, rfl, rfl, w', hw', hs, ht, .error⟩
  | .tooDeep, .tooDeep => exact .inl ⟨rfl, rfl⟩

/-- The store that an outcome leaves belongs to a later world, if the outcome agrees with another. -/
theorem OutcomesAgree.exists_left {r : Except EvalError α} {s : Store} {o : Outcome β}
    (h : S.OutcomesAgree w R (.ended r s) o) : ∃ w', w ≤ w' ∧ S.left w' = s := by
  match r, o with
  | .ok _, .ok .. =>
    obtain ⟨w', hw', hs, -⟩ := h
    exact ⟨w', hw', hs⟩
  | .error _, .error .. =>
    obtain ⟨-, w', hw', hs, -⟩ := h
    exact ⟨w', hw', hs⟩
  | .ok _, .error .. | .ok _, .tooDeep | .error _, .ok .. | .error _, .tooDeep => exact h.elim

/-- What agrees with a result is a related one. -/
theorem OutcomesAgree.exists_of_ok {a : α} {s : Store} {o : Outcome β}
    (h : S.OutcomesAgree w R (.ok a s) o) :
    ∃ b w', o = .ok b (S.right w') ∧ w ≤ w' ∧ S.left w' = s ∧ R w' a b := by
  match o with
  | .ok b _ =>
    obtain ⟨w', hw', hs, rfl, hab⟩ := h
    exact ⟨b, w', rfl, hw', hs, hab⟩
  | .error .. | .tooDeep => exact h.elim

/-- Computations agree if their first parts do and if, from any later world and related results, the
rests do. -/
theorem Agree.bind {x : Eval α} {y : Eval β} {f : α → Eval γ} {g : β → Eval δ}
    (h : S.Agree w R x y) (next : ∀ w', w ≤ w' → ∀ a b, R w' a b → S.Agree w' R' (f a) (g b)) :
    S.Agree w R' (x >>= f) (y >>= g) := by
  rw [Agree, Eval.bind_apply, Eval.bind_apply]
  rw [Agree] at h
  match hx : x (S.left w), hy : y (S.right w) with
  | .ok a s, .ok b t =>
    rw [hx, hy] at h
    obtain ⟨w', hw', rfl, rfl, hab⟩ := h
    exact OutcomesAgree.of_le hw' (next w' hw' a b hab)
  | .error .., .error .. => rwa [hx, hy] at h
  | .tooDeep, .tooDeep => trivial
  | .ok .., .error .. | .ok .., .tooDeep | .error .., .ok .. | .error .., .tooDeep
  | .tooDeep, .ok .. | .tooDeep, .error .. =>
    rw [hx, hy] at h
    exact h.elim

end Correspondence

/-- A correspondence that answers for the primitives of evaluation. -/
structure Simulation (World : Type) [Preorder World] extends Correspondence World where
  value_mono : ∀ {w w' v v'}, w ≤ w' → value w v v' → value w' v v'
  code_mono : ∀ {w w' e a e' b}, w ≤ w' → code w e a e' b → code w' e a e' b
  alike : ∀ {w v v'}, value w v v' → v.Alike (fun c d =>
    ((left w).closure? c).map Closure.params = ((right w).closure? d).map Closure.params) v'
  code_value : ∀ {w e a e' b}, code w e a e' b → value w e e'
  code_items : ∀ {w items a items' b}, code w (.list items) a (.list items') b →
    List.Forall₂ (fun e e' => code w e a e' b) items items'
  number : ∀ {w} x, value w (.number x) (.number x)
  boolean : ∀ {w} b, value w (.boolean b) (.boolean b)
  shown_text : ∀ {w v v'}, value w v v' → shown w ((left w).text v) := by intros; trivial
  shown_name : ∀ {w name a b}, code w (.symbol name) a (.symbol name) b → shown w name := by
    intros; trivial
  shown_builtin : ∀ {w name operation p}, value w (.procedure (.builtin name operation)) p →
    shown w name := by intros; trivial
  gather : ∀ {w name args args'},
    value w (.procedure (.builtin name .gather)) (.procedure (.builtin name .gather)) →
    List.Forall₂ (value w) args args' → value w (.list args) (.list args')
  lookup : ∀ {w name a b}, code w (.symbol name) a (.symbol name) b →
    Value.isQuotedName name = false →
    Option.Rel (value w) ((left w).get? a name) ((right w).get? b name)
  define : ∀ {w name expr a expr' b v v'},
    code w (.list [.symbol (Form.keyword .define), .symbol name, expr]) a
      (.list [.symbol (Form.keyword .define), .symbol name, expr']) b →
    IsBindable name → value w v v' →
    toCorrespondence.Later w ((left w).define a name v) ((right w).define b name v') fun _ => True
  assign : ∀ {w name expr a expr' b v v'},
    code w (.list [.symbol (Form.keyword .assign), .symbol name, expr]) a
      (.list [.symbol (Form.keyword .assign), .symbol name, expr']) b →
    IsBindable name → value w v v' →
    Option.Rel (fun s t => toCorrespondence.Later w s t fun _ => True) ((left w).set? a name v)
      ((right w).set? b name v')
  /-- A scope inside the one that some code may run in, for code to run there. -/
  child : ∀ {w e a e' b own own'}, code w e a e' b → own.Related (value w) own' →
    (∀ name, own.contains name → toCorrespondence.MayBind w a b name) →
    toCorrespondence.Later w ((left w).addScope (some a) own).2 ((right w).addScope (some b) own').2
      fun w' => code w' e ((left w).addScope (some a) own).1 e' ((right w).addScope (some b) own').1
  lambda : ∀ {w targets body a targets' body' b params},
    code w (.list [.symbol (Form.keyword .lambda), .list targets, body]) a
      (.list [.symbol (Form.keyword .lambda), .list targets', body']) b →
    params.Nodup → (∀ name ∈ params, toCorrespondence.MayBind w a b name) →
    toCorrespondence.Later w ((left w).addClosure ⟨params, body, a⟩).2
      ((right w).addClosure ⟨params, body', b⟩).2 fun w' =>
        value w' (.procedure (.closure ((left w).addClosure ⟨params, body, a⟩).1))
          (.procedure (.closure ((right w).addClosure ⟨params, body', b⟩).1))
  /-- The body of a closure may run in a scope with its parameters inside the one it was made in. -/
  call : ∀ {w c d C D}, value w (.procedure (.closure c)) (.procedure (.closure d)) →
    (left w).closure? c = some C → (right w).closure? d = some D →
    ∀ {args args'}, List.Forall₂ (value w) args args' → args.length = C.params.length →
    toCorrespondence.Later w
      ((left w).addScope (some C.scope) (.ofList (C.params.zip args))).2
      ((right w).addScope (some D.scope) (.ofList (D.params.zip args'))).2 fun w' =>
        code w' C.body ((left w).addScope (some C.scope) (.ofList (C.params.zip args))).1
          D.body ((right w).addScope (some D.scope) (.ofList (D.params.zip args'))).1

end ScopedLisp
