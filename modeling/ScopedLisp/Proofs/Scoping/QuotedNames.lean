import ScopedLisp.Proofs.Scopes.Lookup
import ScopedLisp.Proofs.Scopes.Parameters
import ScopedLisp.Proofs.Simulation.Fate

/-! # Quoted names

A scope may be made with bindings under quoted names, and a definition from outside may add some. No
code gets at them: as an expression a quoted name stands for itself, no form takes it for a name, and
no parameter is one. So stores that differ in such bindings only are the same to all code, and no code
makes, changes or hides such a binding. -/

namespace ScopedLisp

namespace Store
variable {s t u : Store} {a : ScopeId} {name : String}

/-- Stores that are equal except for what quoted names are bound to. -/
structure PlainlyEqual (s t : Store) : Prop where
  size : s.scopes.size = t.scopes.size
  parent : ∀ a, s.parent? a = t.parent? a
  own : ∀ a name, Value.isQuotedName name = false → s.own? a name = t.own? a name
  closures : s.closures = t.closures

/-- Whether no closure has a quoted name among its parameters. -/
def PlainParameters (s : Store) : Prop :=
  ∀ c closure, s.closure? c = some closure →
    ∀ param ∈ closure.params, Value.isQuotedName param = false

/-- Quoted names are bound as before, in every scope. -/
def KeepsQuoted (s t : Store) : Prop :=
  ∀ a name, Value.isQuotedName name = true → t.own? a name = s.own? a name

namespace PlainlyEqual

theorem closure?_eq (h : s.PlainlyEqual t) (c : ClosureId) : s.closure? c = t.closure? c := by
  rw [closure?, closure?, h.closures]

theorem get?_eq (h : s.PlainlyEqual t) (a : ScopeId) (hname : Value.isQuotedName name = false) :
    s.get? a name = t.get? a name := by
  simp only [get?, chain_congr h.parent, h.own _ name hname]

theorem owner?_eq (h : s.PlainlyEqual t) (a : ScopeId) (hname : Value.isQuotedName name = false) :
    s.owner? a name = t.owner? a name := by
  simp only [owner?, chain_congr h.parent, h.own _ name hname]

theorem define (h : s.PlainlyEqual t) (a : ScopeId) (name : String) (v : Value) :
    (s.define a name v).PlainlyEqual (t.define a name v) where
  size := by simpa using h.size
  parent b := by simpa using h.parent b
  own b key hkey := by
    have hmade : (s.scope? a).isSome = (t.scope? a).isSome := by
      rw [Bool.eq_iff_iff, scope?, scope?, isSome_getElem?, isSome_getElem?, h.size]
    rw [own?_define, own?_define, hmade, h.own b key hkey]
  closures := h.closures

theorem addScope_fst (h : s.PlainlyEqual t) (parent : Option ScopeId) (own own' : Bindings Value) :
    (s.addScope parent own).1 = (t.addScope parent own').1 :=
  congrArg ScopeId.mk h.size

/-- New scopes may differ in the same way. -/
theorem addScope (h : s.PlainlyEqual t) (parent : Option ScopeId) {own own' : Bindings Value}
    (hown : ∀ name, Value.isQuotedName name = false → own.get? name = own'.get? name) :
    (s.addScope parent own).2.PlainlyEqual (t.addScope parent own').2 where
  size := by simp [Store.addScope, h.size]
  parent b := by
    rw [parent?_addScope, parent?_addScope, h.addScope_fst parent own own', h.parent b]
  own b key hkey := by
    rw [own?_addScope, own?_addScope, h.addScope_fst parent own own', h.own b key hkey, hown key hkey]
  closures := h.closures

theorem addClosure (h : s.PlainlyEqual t) (closure : Closure) :
    (s.addClosure closure).2.PlainlyEqual (t.addClosure closure).2 where
  size := h.size
  parent := h.parent
  own := h.own
  closures := congrArg (Array.push · closure) h.closures

end PlainlyEqual

/-- Defining a quoted name leads to a store that is equal otherwise. -/
theorem plainlyEqual_define (s : Store) (a : ScopeId) (hname : Value.isQuotedName name = true)
    (v : Value) : s.PlainlyEqual (s.define a name v) where
  size := by simp
  parent b := by simp
  own b key hkey := by
    rw [own?_define_of_name_ne]
    rintro rfl
    exact Bool.false_ne_true (hkey.symm.trans hname)
  closures := rfl

theorem ParametersInOrder.plainParameters (h : s.ParametersInOrder) : s.PlainParameters :=
  fun c closure hc param hparam => ((h c closure hc).bindable param hparam).1

theorem PlainParameters.addClosure (h : s.PlainParameters) {closure : Closure}
    (hparams : ∀ param ∈ closure.params, Value.isQuotedName param = false) :
    (s.addClosure closure).2.PlainParameters :=
  fun _ _ => forall_closure?_addClosure (h _ _) hparams

namespace KeepsQuoted

theorem refl (s : Store) : s.KeepsQuoted s := fun _ _ _ => rfl

theorem trans (h : s.KeepsQuoted t) (h' : t.KeepsQuoted u) : s.KeepsQuoted u :=
  fun a name hname => (h' a name hname).trans (h a name hname)

theorem define (s : Store) (a : ScopeId) (hname : Value.isQuotedName name = false) (v : Value) :
    s.KeepsQuoted (s.define a name v) := by
  intro b key hkey
  rw [own?_define_of_name_ne]
  rintro rfl
  exact Bool.false_ne_true (hname.symm.trans hkey)

theorem addScope (s : Store) (parent : Option ScopeId) {own : Bindings Value}
    (hown : ∀ name, own.contains name → Value.isQuotedName name = false) :
    s.KeepsQuoted (s.addScope parent own).2 := by
  intro b key hkey
  rw [own?_addScope]
  split
  · next hb =>
    have hnew : s.own? b key = none :=
      Option.eq_none_iff_forall_ne_some.2 fun v hv =>
        not_has_addScope s parent own (hb ▸ has_of_own? hv)
    have hunbound : own.get? key = none :=
      Option.not_isSome_iff_eq_none.1 fun h => Bool.false_ne_true ((hown key h).symm.trans hkey)
    rw [hnew, hunbound]
  · rfl

end KeepsQuoted
end Store

/-- Two stores that are equal except for quoted names, without quoted parameters. -/
structure PlainPair where
  left : Store
  right : Store
  equal : left.PlainlyEqual right
  plain : left.PlainParameters

namespace PlainPair
variable {w : PlainPair}

/-- Later on, quoted names are bound as before on both sides. -/
instance : Preorder PlainPair where
  le w w' := w.left.KeepsQuoted w'.left ∧ w.right.KeepsQuoted w'.right
  le_refl _ := ⟨.refl _, .refl _⟩
  le_trans _ _ _ h h' := ⟨h.1.trans h'.1, h.2.trans h'.2⟩

/-- Equal values correspond, and all code may run in equal scopes. -/
def correspondence : Correspondence PlainPair where
  left := left
  right := right
  value _ v v' := v = v'
  code _ e a e' b := e = e' ∧ a = b

theorem later_define (w : PlainPair) (a : ScopeId) {name : String}
    (hname : Value.isQuotedName name = false) (v : Value) :
    correspondence.Later w (w.left.define a name v) (w.right.define a name v) fun _ => True :=
  ⟨⟨_, _, w.equal.define a name v, w.plain⟩, ⟨.define _ a hname v, .define _ a hname v⟩, rfl, rfl,
    trivial⟩

theorem later_addScope (w : PlainPair) (parent : Option ScopeId) {own : Bindings Value}
    (hown : ∀ name, own.contains name → Value.isQuotedName name = false) (e : Value) :
    correspondence.Later w (w.left.addScope parent own).2 (w.right.addScope parent own).2 fun w' =>
      correspondence.code w' e (w.left.addScope parent own).1 e (w.right.addScope parent own).1 :=
  ⟨⟨_, _, w.equal.addScope parent fun _ _ => rfl, w.plain⟩, ⟨.addScope _ _ hown, .addScope _ _ hown⟩,
    rfl, rfl, rfl, w.equal.addScope_fst ..⟩

/-- Being equal except for quoted names is a simulation. -/
def simulation : Simulation PlainPair where
  toCorrespondence := correspondence
  value_mono _ := id
  code_mono _ := id
  alike := by
    rintro w v _ rfl
    exact .refl fun c _ => congrArg (Option.map Closure.params) (w.equal.closure?_eq c)
  code_value h := h.1
  code_items := by
    rintro w items a _ _ ⟨heq, rfl⟩
    obtain rfl := Value.list.inj heq
    exact List.forall₂_same.2 fun _ _ => ⟨rfl, rfl⟩
  number _ := rfl
  boolean _ := rfl
  gather _ h := congrArg _ (List.forall₂_eq_eq_eq ▸ h)
  lookup := by
    rintro w name a _ ⟨-, rfl⟩ hname
    change Option.Rel _ (w.left.get? a name) (w.right.get? a name)
    rw [w.equal.get?_eq a hname]
    cases w.right.get? a name with
    | some v => exact .some rfl
    | none => exact .none
  define := by
    rintro w name expr a _ _ v _ ⟨-, rfl⟩ hbindable rfl
    exact w.later_define a hbindable.1 v
  assign := by
    rintro w name expr a _ _ v _ ⟨-, rfl⟩ hbindable rfl
    change Option.Rel _ (w.left.set? a name v) (w.right.set? a name v)
    rw [Store.set?, Store.set?, w.equal.owner?_eq a hbindable.1]
    cases w.right.owner? a name with
    | some owner => exact .some (w.later_define owner hbindable.1 v)
    | none => exact .none
  child := by
    rintro w e a _ _ own _ ⟨rfl, rfl⟩ hown hnames
    obtain rfl := hown.eq_of fun _ _ _ _ => id
    exact w.later_addScope (some a) (fun name hname => (hnames name hname).1.1) e
  lambda := by
    rintro w targets body a targets' body' _ params ⟨heq, rfl⟩ - hnames
    obtain ⟨rfl, rfl⟩ : targets = targets' ∧ body = body' := by simpa using heq
    have hplain : (w.left.addClosure ⟨params, body, a⟩).2.PlainParameters :=
      w.plain.addClosure fun param hparam => (hnames param hparam).1.1
    exact ⟨⟨_, _, w.equal.addClosure _, hplain⟩, ⟨fun _ _ _ => rfl, fun _ _ _ => rfl⟩, rfl, rfl,
      congrArg (fun n => Value.procedure (.closure ⟨n⟩)) (congrArg Array.size w.equal.closures)⟩
  call := by
    rintro w c d C D heq hC hD args args' hargs -
    obtain rfl : c = d := Procedure.closure.inj (Value.procedure.inj heq)
    obtain rfl : C = D := Option.some.inj (hC.symm.trans ((w.equal.closure?_eq c).trans hD))
    obtain rfl : args = args' := List.forall₂_eq_eq_eq ▸ hargs
    exact w.later_addScope (some C.scope)
      (fun name hname => w.plain c C hC name (Bindings.mem_of_contains_ofList_zip hname)) C.body

end PlainPair

/-- Bindings of quoted names cannot be observed: in stores that are equal except for them, evaluation
of any expression has the same fate, answers the same and leaves stores that are equal except for
them. It leaves these bindings as they were in both stores, and makes none. -/
theorem sameFate_of_plainlyEqual {s t : Store} (h : s.PlainlyEqual t) (plain : s.PlainParameters)
    (e : Value) (a : ScopeId) :
    SameFate (fun r u r' u' => r = r' ∧ u.PlainlyEqual u' ∧ u.PlainParameters ∧
        s.KeepsQuoted u ∧ t.KeepsQuoted u') e a s e a t := by
  have hagree (depth : Nat) := Simulation.respects_within (S := PlainPair.simulation) depth
    (w := ⟨s, t, h, plain⟩) (e := e) (a := a) ⟨rfl, rfl⟩
  refine (Correspondence.sameFate_of_agree hagree).mono ?_
  rintro r _ r' _ ⟨w, hw, rfl, rfl, hresults⟩
  refine ⟨?_, w.equal, w.plain, hw.1, hw.2⟩
  cases hresults with
  | ok heq => exact congrArg Except.ok heq
  | error => rfl

/-- One of two roots binds a quoted name, which code assigns before it calls a closure. -/
theorem sameFate_of_plainlyEqual_of_definition :
    ∃ s t : Store, s.own? ⟨0⟩ "f" = some (.procedure (.closure ⟨0⟩)) ∧
      s.own? ⟨0⟩ "\"x\"" = none ∧ t.own? ⟨0⟩ "\"x\"" = some (.number 1) ∧
      s.PlainlyEqual t ∧ s.PlainParameters ∧
      SameFate (fun r u r' u' => r = r' ∧ u.PlainlyEqual u' ∧ u.PlainParameters ∧
          s.KeepsQuoted u ∧ t.KeepsQuoted u')
        (.list [.symbol "f", .list [.symbol "set!", .symbol "\"x\"", .symbol "\"x\""]]) ⟨0⟩ s
        (.list [.symbol "f", .list [.symbol "set!", .symbol "\"x\"", .symbol "\"x\""]]) ⟨0⟩ t := by
  have hshown : ((Session.start.run 10 "(define f (lambda (x) \"x\"))").answer?.map
      fun shown => (shown.2.own? ⟨0⟩ "f", shown.2.own? ⟨0⟩ "\"x\"")) =
        some (some (.procedure (.closure ⟨0⟩)), none) := by decide +kernel
  obtain ⟨⟨answer, s⟩, hanswer, heq⟩ := Option.map_eq_some_iff.1 hshown
  obtain ⟨hbound, hunbound⟩ := Prod.mk.inj heq
  obtain ⟨r, hends⟩ := Outcome.exists_ended_of_answer? hanswer
  have hs : Store.Leads .empty s :=
    .tail (.tail .refl .initial) (.run (Store.has_addScope ..) hends)
  have plain := (Store.ParametersInOrder.empty.of_leads hs).plainParameters
  have hequal : s.PlainlyEqual (s.define ⟨0⟩ "\"x\"" (.number 1)) :=
    s.plainlyEqual_define ⟨0⟩ (by decide) (.number 1)
  exact ⟨s, _, hbound, hunbound, Store.own?_define_self (Store.has_of_own? hbound), hequal, plain,
    sameFate_of_plainlyEqual hequal plain _ ⟨0⟩⟩

end ScopedLisp
