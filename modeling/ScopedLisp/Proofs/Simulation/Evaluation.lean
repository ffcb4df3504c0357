import ScopedLisp.Proofs.Simulation.Agreement

/-! # Evaluation keeps every simulation

A simulation answers for the primitives only. Evaluation is built from them the same way on both
sides, so it agrees on all code that corresponds: first for each function of the evaluator, given
that evaluation of the parts agrees, then within every depth by induction. The depth is the same on
both sides, so one evaluation gives up exactly where the other does. -/

namespace ScopedLisp.Simulation
variable {World : Type} [Preorder World] (S : Simulation World)

/-- An evaluator that agrees with itself on corresponding code. -/
def Respects (ev : Evaluator) : Prop :=
  ∀ ⦃w e a e' b⦄, S.code w e a e' b → S.Agree w S.value (ev e a) (ev e' b)

variable {S} {ev : Evaluator} {w : World} {a b : ScopeId}

theorem mayBind_mono {w' : World} (hw : w ≤ w') {name : String} (h : S.MayBind w a b name) :
    S.MayBind w' a b name :=
  ⟨h.1, S.code_mono hw h.2⟩

/-- Corresponding values spoil a computation with the same error, which may show their text. -/
theorem agree_fail_textOf {α β : Type} {R : World → α → β → Prop} {v v' : Value}
    (h : S.value w v v') (cause : String → EvalError)
    (hcause : ∀ text, S.shown w text → ∀ shown ∈ (cause text).texts, S.shown w shown) :
    S.Agree w R (do let text ← Eval.textOf v; Eval.fail (cause text))
      (do let text ← Eval.textOf v'; Eval.fail (cause text)) :=
  ⟨congrArg cause ((S.alike h).text_eq fun _ _ => id),
    Correspondence.Later.refl (hcause _ (S.shown_text h))⟩

theorem agree_nameOf (form : Form) {target target' : Value} (h : S.value w target target') :
    S.Agree w (fun _ name name' => name = name' ∧ target.bindableName? = some name)
      (form.nameOf target) (form.nameOf target') := by
  have heq := (S.alike h).bindableName?_eq
  rw [Form.nameOf, Form.nameOf, ← heq]
  cases target.bindableName? with
  | some name => exact Correspondence.agree_pure ⟨rfl, rfl⟩
  | none => exact agree_fail_textOf h _ fun _ => by simp [EvalError.texts, Malformation.texts]

/-! ### Builtins -/

theorem agree_numbers {name : String} (hname : S.shown w name) {args args' : List Value}
    (h : List.Forall₂ (S.value w) args args') :
    S.Agree w (fun _ => (· = ·)) (Operation.numbers name args)
      (Operation.numbers name args') := by
  induction h with
  | nil => exact Correspondence.agree_pure rfl
  | @cons v v' rest rest' first _ ih =>
    cases S.alike first with
    | number => exact ih.bind fun _ _ _ _ hxs => hxs ▸ Correspondence.agree_pure rfl
    | boolean | symbol | list | builtin | closure =>
      exact agree_fail_textOf first _ fun _ => by simp [EvalError.texts, hname]

theorem agree_operation {name : String} {operation : Operation} {args args' : List Value}
    (h : S.value w (.procedure (.builtin name operation)) (.procedure (.builtin name operation)))
    (hargs : List.Forall₂ (S.value w) args args') :
    S.Agree w S.value (operation.apply name args) (operation.apply name args') := by
  have hname {w' : World} (hw : w ≤ w') : ∀ text ∈ [name], S.shown w' text :=
    List.forall_mem_singleton.2 (S.shown_builtin (S.value_mono hw h))
  have hnumbers := agree_numbers (S.shown_builtin h) hargs
  cases operation with
  | fold operator =>
    refine hnumbers.bind fun w' hw' xs xs' hxs => hxs ▸ ?_
    cases xs with
    | nil => exact Correspondence.agree_fail _ (hname hw')
    | cons x xs => exact Correspondence.agree_pure (S.number _)
  | compare relation =>
    rw [Operation.apply, Operation.apply, ← hargs.length_eq]
    split
    · refine hnumbers.bind fun w' hw' xs xs' hxs => hxs ▸ ?_
      split
      · exact Correspondence.agree_pure (S.boolean _)
      · exact Correspondence.agree_fail _ (hname hw')
    · exact Correspondence.agree_fail _ (hname le_rfl)
  | gather => exact Correspondence.agree_pure (S.gather h hargs)

/-! ### Given the evaluation of the parts -/

/-- Code runs on in a scope that was just made for it. -/
theorem Respects.agree_newScope (hev : S.Respects ev) {e e' : Value} {own own' : Bindings Value}
    {parent parent' : Option ScopeId}
    (h : S.Later w ((S.left w).addScope parent own).2 ((S.right w).addScope parent' own').2
      fun w' => S.code w' e ((S.left w).addScope parent own).1 e'
        ((S.right w).addScope parent' own').1) :
    S.Agree w S.value (do let inner ← Eval.newScope parent own; ev e inner)
      (do let inner ← Eval.newScope parent' own'; ev e' inner) := by
  obtain ⟨w', hw', hs, ht, hcode⟩ := h
  have hrun := hev hcode
  rw [Correspondence.Agree, hs, ht] at hrun
  exact Correspondence.OutcomesAgree.of_le hw' hrun

theorem Respects.all (hev : S.Respects ev) {es es' : List Value}
    (h : List.Forall₂ (fun e e' => S.code w e a e' b) es es') :
    S.Agree w (fun w' vs vs' => vs.length = es.length ∧ List.Forall₂ (S.value w') vs vs')
      (ev.all a es) (ev.all b es') := by
  induction es generalizing w es' with
  | nil =>
    cases h
    exact Correspondence.agree_pure ⟨rfl, .nil⟩
  | cons e es ih =>
    cases h with
    | cons first later =>
      refine (hev first).bind fun w' hw' v v' hv => ?_
      refine (ih (later.imp fun _ _ => S.code_mono hw')).bind fun w'' hw'' vs vs' hvs => ?_
      exact Correspondence.agree_pure
        ⟨congrArg (· + 1) hvs.1, .cons (S.value_mono hw'' hv) hvs.2⟩

/-- The closures that two corresponding values stand for are both unknown, or known with the same
parameters. -/
theorem closure?_cases {c d : ClosureId}
    (h : S.value w (.procedure (.closure c)) (.procedure (.closure d))) :
    ((S.left w).closure? c = none ∧ (S.right w).closure? d = none) ∨
      ∃ C D, (S.left w).closure? c = some C ∧ (S.right w).closure? d = some D ∧
        C.params = D.params := by
  have hparams := Value.alike_closure_iff.1 (S.alike h)
  cases hc : (S.left w).closure? c with
  | none =>
    rw [hc, Option.map_none, eq_comm, Option.map_eq_none_iff] at hparams
    exact .inl ⟨rfl, hparams⟩
  | some C =>
    rw [hc, Option.map_some, eq_comm, Option.map_eq_some_iff] at hparams
    obtain ⟨D, hd, hparams⟩ := hparams
    exact .inr ⟨C, D, rfl, hd, hparams.symm⟩

theorem Respects.apply (hev : S.Respects ev) {p p' : Procedure} {args args' : List Value}
    (h : S.value w (.procedure p) (.procedure p')) (hargs : List.Forall₂ (S.value w) args args') :
    S.Agree w S.value (p.apply ev args) (p'.apply ev args') := by
  cases S.alike h with
  | builtin => exact agree_operation h hargs
  | @closure c d =>
    have hbind (f : Option Closure → Eval Value) (s : Store) (id : ClosureId) :
        (Eval.closure? id >>= f) s = f (s.closure? id) s := rfl
    rw [Correspondence.Agree, Procedure.apply, Procedure.apply, hbind, hbind]
    rcases closure?_cases h with ⟨hc, hd⟩ | ⟨C, D, hc, hd, hparams⟩
    · rw [hc, hd]
      exact agree_fail_textOf h _ fun _ => by simp [EvalError.texts]
    · rw [hc, hd]
      dsimp only
      rw [← hargs.length_eq, ← hparams]
      split
      · next hlength =>
        refine hev.agree_newScope ?_
        simpa only [← hparams] using S.call h hc hd hargs hlength
      · exact agree_fail_textOf h _ fun _ => by simp [EvalError.texts]

/-- The bindings of a `let` as far as they were taken: related values under names that the code
mentions. -/
def OwnRelated (S : Simulation World) (a b : ScopeId) (w : World) (own own' : Bindings Value) :
    Prop :=
  own.Related (S.value w) own' ∧ ∀ name, own.contains name → S.MayBind w a b name

theorem OwnRelated.insert {own own' : Bindings Value} (h : S.OwnRelated a b w own own')
    {name : String} (hname : S.MayBind w a b name) {v v' : Value} (hv : S.value w v v') :
    S.OwnRelated a b w (own.insert name v) (own'.insert name v') := by
  refine ⟨h.1.insert name hv, fun key hkey => ?_⟩
  by_cases heq : key = name
  · exact heq ▸ hname
  · refine h.2 key ?_
    simpa [Bindings.contains, heq] using hkey

theorem OwnRelated.mono {w' : World} (hw : w ≤ w') {own own' : Bindings Value}
    (h : S.OwnRelated a b w own own') : S.OwnRelated a b w' own own' :=
  ⟨h.1.mono fun _ _ => S.value_mono hw, fun name hname => mayBind_mono hw (h.2 name hname)⟩

/-- Targets with corresponding names are the same symbol. -/
theorem eq_symbol_of_bindableName? {target target' : Value} {name : String}
    (h : S.value w target target') (hname : target.bindableName? = some name) :
    target = .symbol name ∧ target' = .symbol name ∧ IsBindable name := by
  obtain ⟨htarget, hbindable⟩ := bindableName?_eq_some_iff.1 hname
  rw [(S.alike h).bindableName?_eq] at hname
  exact ⟨htarget, (bindableName?_eq_some_iff.1 hname).1, hbindable⟩

theorem mayBind_of_bindableName? {target target' : Value} {name : String}
    (h : S.code w target a target' b) (hname : target.bindableName? = some name) :
    S.MayBind w a b name := by
  obtain ⟨rfl, rfl, hbindable⟩ := eq_symbol_of_bindableName? (S.code_value h) hname
  exact ⟨hbindable, h⟩

theorem Respects.bindAll (hev : S.Respects ev) {own own' : Bindings Value}
    (hown : S.OwnRelated a b w own own') {bindings bindings' : List Value}
    (h : List.Forall₂ (fun e e' => S.code w e a e' b) bindings bindings') :
    S.Agree w (S.OwnRelated a b) (Form.bindAll ev a own bindings)
      (Form.bindAll ev b own' bindings') := by
  induction bindings generalizing w own own' bindings' with
  | nil =>
    cases h
    exact Correspondence.agree_pure hown
  | cons binding rest ih =>
    cases h with
    | @cons _ binding' _ rest' first later =>
      have hbinding := S.alike (S.code_value first)
      by_cases shape : ∃ target initializer, binding = .list [target, initializer]
      · obtain ⟨target, initializer, rfl⟩ := shape
        obtain ⟨target', initializer', rfl⟩ := hbinding.exists_pair_right
        match S.code_items first with
        | .cons htarget (.cons hinitializer .nil) =>
          refine (agree_nameOf .bind (S.code_value htarget)).bind fun w' hw' name _ h => ?_
          obtain ⟨rfl, hname⟩ := h
          have hbind := mayBind_of_bindableName? (S.code_mono hw' htarget) hname
          rw [← (hown.1.contains_eq name)]
          split
          · exact Correspondence.agree_fail _ (List.forall_mem_singleton.2 (S.shown_name hbind.2))
          · refine (hev (S.code_mono hw' hinitializer)).bind fun w'' hw'' v v' hv => ?_
            have hlater := le_trans hw' hw''
            exact ih ((hown.mono hlater).insert (mayBind_mono hw'' hbind) hv)
              (later.imp fun _ _ => S.code_mono hlater)
      · have shape' : ¬ ∃ target initializer, binding' = .list [target, initializer] := by
          rintro ⟨_, _, rfl⟩
          exact shape hbinding.exists_pair_left
        simp only [not_exists] at shape shape'
        rw [Correspondence.Agree, Form.bindAll_of_not_pair _ _ _ shape,
          Form.bindAll_of_not_pair _ _ _ shape', ← hbinding.text_eq fun _ _ => id]
        exact Correspondence.agree_fail (S := S.toCorrespondence) _
          (List.forall_mem_singleton.2 (S.shown_text (S.code_value first)))

/-! ### Special forms -/

/-- Forms that write a name to a scope agree if the writes do. -/
theorem Respects.write (hev : S.Respects ev) (form : Form) {target expr target' expr' : Value}
    (htarget : S.value w target target') (hexpr : S.code w expr a expr' b)
    {write write' : String → Value → Eval Unit}
    (hwrite : ∀ {w' name v v'}, w ≤ w' → target.bindableName? = some name → S.value w' v v' →
      S.Agree w' (fun _ _ _ => True) (write name v) (write' name v')) :
    S.Agree w S.value
      (do
        let name ← form.nameOf target
        let value ← ev expr a
        write name value
        return value)
      (do
        let name ← form.nameOf target'
        let value ← ev expr' b
        write' name value
        return value) := by
  refine (agree_nameOf form htarget).bind fun w' hw' name _ hname => ?_
  obtain ⟨rfl, hname⟩ := hname
  refine (hev (S.code_mono hw' hexpr)).bind fun w'' hw'' v v' hv => ?_
  refine (hwrite (le_trans hw' hw'') hname hv).bind fun _ hlast _ _ _ => ?_
  exact Correspondence.agree_pure (S.value_mono hlast hv)

theorem Respects.define (hev : S.Respects ev) {target expr target' expr' : Value}
    (h : S.code w (.list [.symbol (Form.keyword .define), target, expr]) a
      (.list [.symbol (Form.keyword .define), target', expr']) b) :
    S.Agree w S.value (Form.apply ev .define [target, expr] a)
      (Form.apply ev .define [target', expr'] b) := by
  obtain ⟨-, htarget, hexpr, -⟩ : _ ∧ S.code w target a target' b ∧ S.code w expr a expr' b ∧ _ := by
    simpa only [List.forall₂_cons] using S.code_items h
  refine hev.write .define (S.code_value htarget) hexpr fun hw' hname hv => ?_
  obtain ⟨rfl, rfl, hbindable⟩ := eq_symbol_of_bindableName? (S.code_value htarget) hname
  exact S.define (S.code_mono hw' h) hbindable hv

theorem Respects.assign (hev : S.Respects ev) {target expr target' expr' : Value}
    (h : S.code w (.list [.symbol (Form.keyword .assign), target, expr]) a
      (.list [.symbol (Form.keyword .assign), target', expr']) b) :
    S.Agree w S.value (Form.apply ev .assign [target, expr] a)
      (Form.apply ev .assign [target', expr'] b) := by
  obtain ⟨-, htarget, hexpr, -⟩ : _ ∧ S.code w target a target' b ∧ S.code w expr a expr' b ∧ _ := by
    simpa only [List.forall₂_cons] using S.code_items h
  refine hev.write .assign (S.code_value htarget) hexpr fun {w' name v v'} hw' hname hv => ?_
  obtain ⟨rfl, rfl, hbindable⟩ := eq_symbol_of_bindableName? (S.code_value htarget) hname
  have hshown := S.shown_name (S.code_mono hw' htarget)
  have hset := S.assign (S.code_mono hw' h) hbindable hv
  rw [Correspondence.Agree, Eval.assign, Eval.assign]
  generalize (S.left w').set? a name v = s, (S.right w').set? b name v' = t at hset ⊢
  cases hset with
  | some hlater => exact hlater
  | none =>
    exact Correspondence.agree_fail (S := S.toCorrespondence) _ (List.forall_mem_singleton.2 hshown)

theorem Respects.choose (hev : S.Respects ev) {test yes no test' yes' no' : Value}
    (htest : S.code w test a test' b) (hyes : S.code w yes a yes' b) (hno : S.code w no a no' b) :
    S.Agree w S.value (Form.apply ev .choose [test, yes, no] a)
      (Form.apply ev .choose [test', yes', no'] b) := by
  refine (hev htest).bind fun w' hw' v v' hv => ?_
  rw [← (S.alike hv).truthy_eq]
  split
  · exact hev (S.code_mono hw' hyes)
  · exact hev (S.code_mono hw' hno)

theorem Respects.bind (hev : S.Respects ev) {bindings body bindings' body' : Value}
    (hbindings : S.code w bindings a bindings' b) (hbody : S.code w body a body' b) :
    S.Agree w S.value (Form.apply ev .bind [bindings, body] a)
      (Form.apply ev .bind [bindings', body'] b) := by
  have hshape := S.alike (S.code_value hbindings)
  by_cases shape : ∃ items, bindings = .list items
  · obtain ⟨items, rfl⟩ := shape
    obtain ⟨items', rfl⟩ := hshape.exists_list_right
    refine (hev.bindAll ⟨.empty, nofun⟩ (S.code_items hbindings)).bind fun w' hw' own own' hown => ?_
    exact hev.agree_newScope (S.child (S.code_mono hw' hbody) hown.1 hown.2)
  · have shape' : ¬ ∃ items, bindings' = .list items := by
      rintro ⟨_, rfl⟩
      exact shape hshape.exists_list_left
    simp only [not_exists] at shape shape'
    rw [Correspondence.Agree, Form.apply_bind_of_not_list _ shape,
      Form.apply_bind_of_not_list _ shape']
    exact Correspondence.agree_fail (S := S.toCorrespondence) _ (List.forall_mem_nil _)

/-- Corresponding targets are parameters of the same names, or fail to be with the same error. -/
theorem agree_parameters {targets targets' : List Value}
    (h : List.Forall₂ (fun e e' => S.code w e a e' b) targets targets') (seen : List String)
    (hseen : seen.Nodup) (hbind : ∀ name ∈ seen, S.MayBind w a b name) :
    S.Agree w (fun w' params params' => params = params' ∧ params.Nodup ∧
        ∀ name ∈ params, S.MayBind w' a b name)
      (Form.parameters seen targets) (Form.parameters seen targets') := by
  induction targets generalizing w seen targets' with
  | nil =>
    cases h
    exact Correspondence.agree_pure ⟨rfl, hseen, hbind⟩
  | cons target rest ih =>
    cases h with
    | cons first later =>
      refine (agree_nameOf .lambda (S.code_value first)).bind fun w' hw' name _ h => ?_
      obtain ⟨rfl, hname⟩ := h
      have hmay := mayBind_of_bindableName? (S.code_mono hw' first) hname
      split
      · exact Correspondence.agree_fail _ (List.forall_mem_singleton.2 (S.shown_name hmay.2))
      · next hfresh =>
        refine ih (later.imp fun _ _ => S.code_mono hw') _ ?_ ?_
        · rw [List.nodup_append]
          refine ⟨hseen, by simp, fun other hother _ hname heq => ?_⟩
          exact hfresh (List.mem_singleton.1 hname ▸ heq ▸ hother)
        · exact List.forall_mem_append.2
            ⟨fun other hother => mayBind_mono hw' (hbind other hother),
              List.forall_mem_singleton.2 hmay⟩

theorem Respects.lambda {targets body targets' body' : Value}
    (h : S.code w (.list [.symbol (Form.keyword .lambda), targets, body]) a
      (.list [.symbol (Form.keyword .lambda), targets', body']) b) :
    S.Agree w S.value (Form.apply ev .lambda [targets, body] a)
      (Form.apply ev .lambda [targets', body'] b) := by
  obtain ⟨-, htargets, -⟩ : _ ∧ S.code w targets a targets' b ∧ _ := by
    simpa only [List.forall₂_cons] using S.code_items h
  have hshape := S.alike (S.code_value htargets)
  by_cases shape : ∃ items, targets = .list items
  · obtain ⟨items, rfl⟩ := shape
    obtain ⟨items', rfl⟩ := hshape.exists_list_right
    refine (agree_parameters (S.code_items htargets) [] List.nodup_nil (List.forall_mem_nil _)).bind
      fun w' hw' params _ hparams => ?_
    obtain ⟨rfl, hdistinct, hbind⟩ := hparams
    exact S.lambda (S.code_mono hw' h) hdistinct hbind
  · have shape' : ¬ ∃ items, targets' = .list items := by
      rintro ⟨_, rfl⟩
      exact shape hshape.exists_list_left
    simp only [not_exists] at shape shape'
    rw [Correspondence.Agree, Form.apply_lambda_of_not_list _ shape,
      Form.apply_lambda_of_not_list _ shape']
    exact Correspondence.agree_fail (S := S.toCorrespondence) _ (List.forall_mem_nil _)

theorem Respects.form (hev : S.Respects ev) {form : Form} {operands operands' : List Value}
    (h : S.code w (.list (.symbol form.keyword :: operands)) a
      (.list (.symbol form.keyword :: operands')) b) :
    S.Agree w S.value (form.apply ev operands a) (form.apply ev operands' b) := by
  have hoperands : List.Forall₂ (fun e e' => S.code w e a e' b) operands operands' :=
    (List.forall₂_cons.1 (S.code_items h)).2
  by_cases count : operands.length = form.operandCount
  · have count' : operands'.length = form.operandCount := hoperands.length_eq ▸ count
    cases form with
    | quote =>
      obtain ⟨datum, rfl⟩ := List.length_eq_one_iff.1 count
      obtain ⟨datum', rfl⟩ := List.length_eq_one_iff.1 count'
      exact Correspondence.agree_pure (S.code_value (List.forall₂_cons.1 hoperands).1)
    | choose =>
      obtain ⟨test, yes, no, rfl⟩ := List.length_eq_three.1 count
      obtain ⟨test', yes', no', rfl⟩ := List.length_eq_three.1 count'
      obtain ⟨htest, hyes, hno, -⟩ := by simpa only [List.forall₂_cons] using hoperands
      exact hev.choose htest hyes hno
    | define =>
      obtain ⟨target, expr, rfl⟩ := List.length_eq_two.1 count
      obtain ⟨target', expr', rfl⟩ := List.length_eq_two.1 count'
      exact hev.define h
    | assign =>
      obtain ⟨target, expr, rfl⟩ := List.length_eq_two.1 count
      obtain ⟨target', expr', rfl⟩ := List.length_eq_two.1 count'
      exact hev.assign h
    | bind =>
      obtain ⟨bindings, body, rfl⟩ := List.length_eq_two.1 count
      obtain ⟨bindings', body', rfl⟩ := List.length_eq_two.1 count'
      obtain ⟨hbindings, hbody, -⟩ := by simpa only [List.forall₂_cons] using hoperands
      exact hev.bind hbindings hbody
    | lambda =>
      obtain ⟨targets, body, rfl⟩ := List.length_eq_two.1 count
      obtain ⟨targets', body', rfl⟩ := List.length_eq_two.1 count'
      exact Respects.lambda h
  · have count' : operands'.length ≠ form.operandCount := hoperands.length_eq ▸ count
    rw [Form.apply_of_length_ne _ count, Form.apply_of_length_ne _ count', hoperands.length_eq]
    exact Correspondence.agree_fail _ (List.forall_mem_nil _)

/-! ### Expressions -/

theorem Respects.step (hev : S.Respects ev) : S.Respects (Evaluator.step ev) := by
  intro w e a e' b h
  cases S.alike (S.code_value h) with
  | number | boolean | builtin | closure => exact Correspondence.agree_pure (S.code_value h)
  | @symbol name =>
    cases hquoted : Value.isQuotedName name with
    | true =>
      simp only [Evaluator.step, hquoted, if_true]
      exact Correspondence.agree_pure (S.code_value h)
    | false =>
      simp only [Evaluator.step, hquoted, Bool.false_eq_true, if_false]
      have hlookup := S.lookup h hquoted
      rw [Correspondence.Agree, Eval.lookup, Eval.lookup]
      generalize (S.left w).get? a name = x, (S.right w).get? b name = y at hlookup ⊢
      cases hlookup with
      | some hv => exact Correspondence.agree_pure (S := S.toCorrespondence) hv
      | none =>
        exact Correspondence.agree_fail (S := S.toCorrespondence) _
          (List.forall_mem_singleton.2 (S.shown_name h))
  | @list items items' _ =>
    match items, items', S.code_items h with
    | _, _, .nil => exact Correspondence.agree_pure (S.code_value h)
    | head :: operands, head' :: operands', .cons hhead hoperands =>
      have hform := (S.alike (S.code_value hhead)).form?_eq
      cases hspecial : head.form? with
      | some form =>
        obtain rfl := (Value.form?_eq_some_iff head form).1 hspecial
        obtain rfl := (Value.form?_eq_some_iff head' form).1 (hform ▸ hspecial)
        simp only [Evaluator.step, hspecial]
        exact hev.form h
      | none =>
        have hspecial' : head'.form? = none := hform ▸ hspecial
        simp only [Evaluator.step, hspecial, hspecial']
        refine (hev hhead).bind fun w' hw' operator operator' hoperator => ?_
        refine (hev.all (hoperands.imp fun _ _ => S.code_mono hw')).bind
          fun w'' hw'' args args' hargs => ?_
        obtain ⟨-, hargs⟩ := hargs
        have hoperator := S.value_mono hw'' hoperator
        cases S.alike hoperator with
        | builtin | closure => exact hev.apply hoperator hargs
        | number | boolean | symbol | list =>
          exact agree_fail_textOf hoperator _ fun _ => by simp [EvalError.texts]

theorem respects_within (depth : Nat) : S.Respects (Evaluator.within depth) := by
  induction depth with
  | zero => exact fun _ _ _ _ _ _ => trivial
  | succ depth ih => exact ih.step

end ScopedLisp.Simulation
