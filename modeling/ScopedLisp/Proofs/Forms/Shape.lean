import ScopedLisp.Proofs.Scoping.LocalBinding

/-! # The shapes of forms

Each form asks for operands of some shape. A `let` looks at its bindings one by one and evaluates each
initializer before it looks at the next binding. So when its shape is wrong, it does what the
initializers before the first wrong binding do, and then fails; when nothing stands before, it fails
at once and leaves everything as it was. -/

namespace ScopedLisp

/-- A name with its initializer, as an expression. -/
def Value.binding (binding : String × Value) : Value :=
  .list [.symbol binding.1, binding.2]

namespace Form

/-- Operands of the right shape. -/
inductive Shaped : Form → List Value → Prop
  | quote (datum : Value) : Shaped .quote [datum]
  | choose (test yes no : Value) : Shaped .choose [test, yes, no]
  | define {name : String} (bindable : IsBindable name) (expr : Value) :
      Shaped .define [.symbol name, expr]
  | assign {name : String} (bindable : IsBindable name) (expr : Value) :
      Shaped .assign [.symbol name, expr]
  | bind {bindings : List (String × Value)} (bindings_ok : AreBindings bindings) (body : Value) :
      Shaped .bind [.list (bindings.map Value.binding), body]
  | lambda {params : List String} (distinct : params.Nodup)
      (bindable : ∀ param ∈ params, IsBindable param) (body : Value) :
      Shaped .lambda [.list (params.map .symbol), body]

/-- What is wrong with a binding that comes after others with some names. -/
inductive Refused (names : List String) : Value → (Store → Malformation) → Prop
  | notPair {bad : Value} (shape : ∀ target initializer, bad ≠ .list [target, initializer]) :
      Refused names bad fun s => .notPair (s.text bad)
  | unbindable {target : Value} (unnamed : target.bindableName? = none) (initializer : Value) :
      Refused names (.list [target, initializer]) fun s => .unbindable (s.text target)
  | boundTwice {name : String} (bindable : IsBindable name) (seen : name ∈ names)
      (initializer : Value) :
      Refused names (Value.binding (name, initializer)) fun _ => .boundTwice name

/-- What is wrong with the operands of a `let`, after which bindings that are in order. -/
inductive Breaks : List Value → List (String × Value) → (Store → Malformation) → Prop
  | count {operands : List Value} (count : operands.length ≠ 2) :
      Breaks operands [] fun _ => .operandCount 2 operands.length
  | notList {bindings : Value} (shape : ∀ items, bindings ≠ .list items) (body : Value) :
      Breaks [bindings, body] [] fun _ => .bindingsNotList
  | binding {before : List (String × Value)} (inOrder : AreBindings before) {bad : Value}
      {fault : Store → Malformation} (refused : Refused (before.map Prod.fst) bad fault)
      (after : List Value) (body : Value) :
      Breaks [.list (before.map Value.binding ++ bad :: after), body] before fault

/-- One more binding is in order after others, or it is refused. -/
theorem refused_or_append {before : List (String × Value)} (hbefore : AreBindings before)
    (bad : Value) :
    (∃ fault, Refused (before.map Prod.fst) bad fault) ∨
      ∃ last, bad = Value.binding last ∧ AreBindings (before ++ [last]) := by
  by_cases shape : ∃ target initializer, bad = .list [target, initializer]
  · obtain ⟨target, initializer, rfl⟩ := shape
    cases hname : target.bindableName? with
    | none => exact .inl ⟨_, .unbindable hname initializer⟩
    | some name =>
      obtain ⟨rfl, hbindable⟩ := bindableName?_eq_some_iff.1 hname
      by_cases hseen : name ∈ before.map Prod.fst
      · exact .inl ⟨_, .boundTwice hbindable hseen initializer⟩
      · refine .inr ⟨(name, initializer), rfl, ?_, ?_⟩
        · rw [List.map_append]
          exact hbefore.distinct.append (List.nodup_singleton _) (List.disjoint_singleton.2 hseen)
        · exact List.forall_mem_append.2
            ⟨hbefore.bindable, List.forall_mem_singleton.2 hbindable⟩
  · simp only [not_exists] at shape
    exact .inl ⟨_, .notPair shape⟩

/-- The bindings of a `let` are in order, or there is a first one that is not. -/
theorem bindings_cases (items : List Value) :
    (∃ bindings, AreBindings bindings ∧ items = bindings.map Value.binding) ∨
      ∃ before bad after fault, items = before.map Value.binding ++ bad :: after ∧
        AreBindings before ∧ Refused (before.map Prod.fst) bad fault := by
  induction items using List.reverseRecOn with
  | nil => exact .inl ⟨[], ⟨List.nodup_nil, nofun⟩, rfl⟩
  | append_singleton items last ih =>
    rcases ih with ⟨bindings, hbindings, rfl⟩ | ⟨before, bad, after, fault, rfl, h⟩
    · rcases refused_or_append hbindings last with ⟨fault, h⟩ | ⟨binding, rfl, h⟩
      · exact .inr ⟨bindings, last, [], fault, rfl, hbindings, h⟩
      · exact .inl ⟨bindings ++ [binding], h, by simp⟩
    · exact .inr ⟨before, bad, after ++ [last], fault, by simp, h⟩

/-- Operands are of the right shape for a `let`, or they break it somewhere. -/
theorem shaped_or_breaks (operands : List Value) :
    Shaped .bind operands ∨ ∃ before fault, Breaks operands before fault := by
  by_cases count : operands.length = 2
  · obtain ⟨bindings, body, rfl⟩ := List.length_eq_two.1 count
    by_cases shape : ∃ items, bindings = .list items
    · obtain ⟨items, rfl⟩ := shape
      rcases bindings_cases items with ⟨bindings, h, rfl⟩ | ⟨before, bad, after, fault, rfl, h⟩
      · exact .inl (.bind h body)
      · exact .inr ⟨before, fault, .binding h.1 h.2 after body⟩
    · exact .inr ⟨[], _, .notList (not_exists.1 shape) body⟩
  · exact .inr ⟨[], _, .count count⟩

theorem shaped_bind_iff {operands : List Value} : Shaped .bind operands ↔
    ∃ bindings body, AreBindings bindings ∧ operands = [.list (bindings.map Value.binding), body] :=
  ⟨fun | .bind h body => ⟨_, body, h, rfl⟩, fun ⟨_, body, h, heq⟩ => heq ▸ .bind h body⟩

theorem binding_injective : Function.Injective Value.binding := by
  rintro ⟨name, initializer⟩ ⟨other, initializer'⟩ h
  simpa [Value.binding] using h

/-- What is in order is not refused. -/
theorem not_refused {before after : List (String × Value)} {binding : String × Value}
    (h : AreBindings (before ++ binding :: after)) {fault : Store → Malformation} :
    ¬ Refused (before.map Prod.fst) (Value.binding binding) fault := by
  have hbindable : IsBindable binding.1 := h.bindable binding (by simp)
  have hunseen : binding.1 ∉ before.map Prod.fst := by
    have hdistinct := h.distinct
    rw [List.map_append, List.map_cons, List.nodup_middle] at hdistinct
    exact fun hseen => (List.nodup_cons.1 hdistinct).1 (List.mem_append_left _ hseen)
  intro hrefused
  generalize hbad : Value.binding binding = bad at hrefused
  cases hrefused with
  | notPair shape => exact shape _ _ hbad.symm
  | unbindable unnamed =>
    obtain ⟨rfl, -⟩ : Value.symbol binding.1 = _ ∧ _ := by simpa [Value.binding] using hbad
    simp [hbindable.bindableName?_eq] at unnamed
  | boundTwice _ seen => exact hunseen (binding_injective hbad ▸ seen)

theorem Breaks.not_shaped {operands : List Value} {before : List (String × Value)}
    {fault : Store → Malformation} (h : Breaks operands before fault) : ¬ Shaped .bind operands := by
  rw [shaped_bind_iff]
  rintro ⟨bindings, body, hbindings, heq⟩
  cases h with
  | count count => exact count (by rw [heq]; rfl)
  | notList shape => exact shape _ (List.cons.inj heq).1
  | binding _ refused =>
    have hsplit := Value.list.inj (List.cons.inj heq).1
    obtain ⟨before', rest, rfl, hbefore, hrest⟩ := List.map_eq_append_iff.1 hsplit.symm
    obtain ⟨binding, after', rfl, rfl, -⟩ := List.map_eq_cons_iff.1 hrest
    obtain rfl := List.map_injective_iff.2 binding_injective hbefore
    exact not_refused hbindings refused

/-- Fails with a fault that may show values of the store. -/
def refuse {α : Type} (fault : Store → Malformation) : Eval α := fun s =>
  .error (.malformed .bind (fault s)) s

variable {ev : Evaluator} {a : ScopeId}

theorem bindAll_of_refused {own : Bindings Value} {names : List String}
    (hown : ∀ name ∈ names, own.contains name) {bad : Value} {fault : Store → Malformation}
    (h : Refused names bad fault) (after : List Value) :
    bindAll ev a own (bad :: after) = refuse fault := by
  funext s
  cases h with
  | notPair shape => exact bindAll_of_not_pair ev a own shape after s
  | unbindable unnamed => simp [bindAll, nameOf_of_none .bind unnamed, refuse]
  | boundTwice bindable seen =>
    simp [Value.binding, bindAll, nameOf_of_some .bind bindable.bindableName?_eq, hown _ seen, refuse]

/-- The bindings of a `let` are taken one by one up to the first that is refused. -/
theorem bindAll_append_of_refused {before : List (String × Value)}
    (hbindable : ∀ binding ∈ before, IsBindable binding.1) {own : Bindings Value}
    {names : List String} (hdistinct : (names ++ before.map Prod.fst).Nodup)
    (hown : ∀ name, own.contains name ↔ name ∈ names) {bad : Value} {fault : Store → Malformation}
    (h : Refused (names ++ before.map Prod.fst) bad fault) (after : List Value) :
    bindAll ev a own (before.map Value.binding ++ bad :: after) =
      ev.all a (before.map Prod.snd) >>= fun _ => refuse fault := by
  induction before generalizing own names with
  | nil => exact bindAll_of_refused (fun name hname => (hown name).2 (by simpa using hname)) h after
  | cons binding before ih =>
    obtain ⟨name, initializer⟩ := binding
    obtain ⟨hname, hbindable⟩ := List.forall_mem_cons.1 hbindable
    have hfresh : own.contains name = false := by
      rw [Bool.eq_false_iff, ne_eq, hown]
      exact fun hmem => (List.nodup_append.1 hdistinct).2.2 name hmem name (by simp) rfl
    have hinserted (v : Value) (key : String) :
        (own.insert name v).contains key ↔ key ∈ names ++ [name] := by
      rw [List.mem_append, ← hown, List.mem_singleton, Bindings.contains, Bindings.get?_insert]
      split <;> simp_all [Bindings.contains]
    simp only [List.map_cons] at hdistinct h
    rw [List.append_cons] at hdistinct h
    simp only [List.map_cons, List.cons_append, Value.binding, bindAll,
      nameOf_of_some _ hname.bindableName?_eq, pure_bind, hfresh, Bool.false_eq_true, if_false,
      Evaluator.all, bind_assoc]
    -- whatever the initializer is evaluated to, its name is one of those taken from now on
    congr 1
    funext v
    exact ih hbindable hdistinct (hinserted v) h

theorem apply_bind_of_breaks {operands : List Value} {before : List (String × Value)}
    {fault : Store → Malformation} (h : Breaks operands before fault) (ev : Evaluator)
    (a : ScopeId) :
    apply ev .bind operands a = ev.all a (before.map Prod.snd) >>= fun _ => refuse fault := by
  cases h with
  | count count => exact apply_of_length_ne ev count a
  | notList shape body => exact funext (apply_bind_of_not_list ev shape body a)
  | binding inOrder refused after body =>
    have hnames (name : String) : (Bindings.empty : Bindings Value).contains name ↔ name ∈ [] := by
      simp [Bindings.contains]
    rw [apply, bindAll_append_of_refused inOrder.bindable inOrder.distinct hnames refused, bind_assoc]
    rfl

end Form

/-- A `let` has the wrong shape if there is something wrong with its operands. Then it evaluates the
initializers before that, as operands are evaluated, and fails for its shape. If there are none, it
fails at once. -/
theorem Evaluator.step_let_of_breaks (operands : List Value) :
    (¬ Form.Shaped .bind operands ↔ ∃ before fault, Form.Breaks operands before fault) ∧
    ∀ before fault, Form.Breaks operands before fault →
      (∀ ev a s, step ev (.list (.symbol "let" :: operands)) a s =
        (ev.all a (before.map Prod.snd) >>= fun _ => Form.refuse fault) s) ∧
      (before = [] → ∀ ev a s, step ev (.list (.symbol "let" :: operands)) a s =
        .error (.malformed .bind (fault s)) s) := by
  refine ⟨⟨(Form.shaped_or_breaks operands).resolve_left, ?_⟩, fun before fault h => ?_⟩
  · rintro ⟨_, _, h⟩
    exact h.not_shaped
  · have hkeyword : (Value.symbol "let").form? = some .bind := Form.ofKeyword?_keyword .bind
    have hstep (ev : Evaluator) (a : ScopeId) : step ev (.list (.symbol "let" :: operands)) a =
        ev.all a (before.map Prod.snd) >>= fun _ => Form.refuse fault := by
      simp only [step, hkeyword]
      exact Form.apply_bind_of_breaks h ev a
    refine ⟨fun ev a s => by rw [hstep], ?_⟩
    rintro rfl ev a s
    rw [hstep]
    rfl

/-- The operands of `(let ((a initializer) 5) a)`. -/
def Form.unpairedOperands (initializer : Value) : List Value :=
  [.list [.list [.symbol "a", initializer], .number 5], .symbol "a"]

theorem Form.breaks_unpairedOperands (initializer : Value) :
    Breaks (unpairedOperands initializer) [("a", initializer)] fun s =>
      .notPair (s.text (.number 5)) := by
  have hbefore : AreBindings [("a", initializer)] := ⟨by simp, by simp [IsBindable]; decide⟩
  have hbad : Refused ["a"] (.number 5) fun s => .notPair (s.text (.number 5)) :=
    .notPair (by simp)
  exact .binding hbefore hbad [] (.symbol "a")

/-- The expression `(define z 1)`. -/
def Value.defineZ : Value :=
  .list [.symbol "define", .symbol "z", .number 1]

/-- A definition in the first initializer is evaluated before the second binding is refused. -/
theorem Evaluator.step_let_of_breaks_of_defineZ :
    Form.Breaks (Form.unpairedOperands .defineZ) [("a", .defineZ)]
        (fun s => .notPair (s.text (.number 5))) ∧
      within 5 (.list (.symbol "let" :: Form.unpairedOperands .defineZ)) Session.start.root
          Session.start.store =
        ((within 4).all Session.start.root [.defineZ] >>= fun _ =>
          Form.refuse fun s => .notPair (s.text (.number 5))) Session.start.store :=
  have h := Form.breaks_unpairedOperands .defineZ
  ⟨h, ((step_let_of_breaks _).2 _ _ h).1 (within 4) _ _⟩

/-- The definition is there after the failure, and an error in the first initializer comes instead of
the failure. -/
theorem Evaluator.within_let_of_unpairedOperands :
    ¬ Form.Shaped .bind (Form.unpairedOperands .defineZ) ∧
    Session.start.store.own? Session.start.root "z" = none ∧
    (∃ t, within 5 (.list (.symbol "let" :: Form.unpairedOperands .defineZ)) Session.start.root
        Session.start.store = .error (.malformed .bind (.notPair "5")) t ∧
      t.own? Session.start.root "z" = some (.number 1)) ∧
    ¬ Form.Shaped .bind (Form.unpairedOperands (.symbol "u")) ∧
    ∃ t, within 5 (.list (.symbol "let" :: Form.unpairedOperands (.symbol "u"))) Session.start.root
      Session.start.store = .error (.unbound "u") t := by
  have hdefined : ((within 5 (.list (.symbol "let" :: Form.unpairedOperands .defineZ))
      Session.start.root Session.start.store).answer?.map fun shown =>
        (shown.1, shown.2.own? Session.start.root "z")) =
      some (.error (.malformed .bind (.notPair "5")), some (.number 1)) := by decide +kernel
  have hfailed : ((within 5 (.list (.symbol "let" :: Form.unpairedOperands (.symbol "u")))
      Session.start.root Session.start.store).answer?.map Prod.fst) =
        some (.error (.unbound "u")) := by decide +kernel
  obtain ⟨⟨answer, t⟩, hanswer, hdefined⟩ := Option.map_eq_some_iff.1 hdefined
  obtain ⟨rfl, hz⟩ := Prod.mk.inj hdefined
  obtain ⟨⟨answer, u⟩, hanswer', rfl⟩ := Option.map_eq_some_iff.1 hfailed
  exact ⟨(Form.breaks_unpairedOperands _).not_shaped, by decide +kernel,
    ⟨t, Outcome.eq_error_of_answer? hanswer, hz⟩, (Form.breaks_unpairedOperands _).not_shaped,
    u, Outcome.eq_error_of_answer? hanswer'⟩

end ScopedLisp
