import ScopedLisp.Proofs.Scopes.WellFormed

/-! # Paired stores

Two stores are compared by making partners of scopes in the one and scopes in the other, and of
closures likewise. Partners are unique. Scopes that are partners bind the same names to values that
are alike up to partners, and closures that are partners have the same parameters, bodies that are
alike and scopes whose chains consist of partners.

On its chains the right store may have additional scopes, the slack, which have no partners. Code
that runs inside of slack does not mention the names bound there and does not define anything, so it
cannot tell whether the slack is there. -/

namespace ScopedLisp

/-- The scopes that only the right one of two stores has on its chains, and the names they bind. -/
structure Slack where
  scopes : List ScopeId
  names : List String

instance : EmptyCollection Slack := ⟨⟨[], []⟩⟩

/-- A relation in which nothing has more than one partner on the other side. -/
def Partnership {α β : Type} (R : α → β → Prop) : Prop :=
  ∀ ⦃a b a' b'⦄, R a b → R a' b' → (a = a' ↔ b = b')

/-- Two that have no partners yet can become partners. -/
theorem Partnership.insert {α β : Type} {R : α → β → Prop} (h : Partnership R) {x : α} {y : β}
    (hx : ∀ b, ¬ R x b) (hy : ∀ a, ¬ R a y) : Partnership fun a b => R a b ∨ a = x ∧ b = y := by
  have hleft {a b} (hab : R a b) : a ≠ x := fun heq => hx b (heq ▸ hab)
  have hright {a b} (hab : R a b) : b ≠ y := fun heq => hy a (heq ▸ hab)
  rintro a b a' b' (hab | ⟨rfl, rfl⟩) (hab' | ⟨rfl, rfl⟩)
  · exact h hab hab'
  · exact iff_of_false (hleft hab) (hright hab)
  · exact iff_of_false (hleft hab').symm (hright hab').symm
  · exact iff_of_true rfl rfl

theorem Partnership.symm {α β : Type} {R : α → β → Prop} (h : Partnership R) :
    Partnership fun b a => R a b :=
  fun _ _ _ _ hab hab' => (h hab hab').symm

theorem Partnership.trans {α β γ : Type} {R : α → β → Prop} {S : β → γ → Prop} (h : Partnership R)
    (h' : Partnership S) : Partnership fun a c => ∃ b, R a b ∧ S b c := by
  rintro a c a' c' ⟨b, hab, hbc⟩ ⟨b', hab', hbc'⟩
  exact (h hab hab').trans (h' hbc hbc')

/-- Two stores with the scopes and closures that are partners in them. -/
structure Pairs where
  left : Store
  right : Store
  scope : ScopeId → ScopeId → Prop
  closure : ClosureId → ClosureId → Prop

namespace Pairs
variable {P Q R : Pairs} {slack : Slack} {a b : ScopeId} {e e' : Value}

/-- Scopes whose chains are made up of partners, in the same order and up to slack. -/
structure Stand (P : Pairs) (slack : Slack) (a b : ScopeId) : Prop where
  left_has : P.left.Has a
  right_has : P.right.Has b
  chain : List.Forall₂ P.scope (P.left.chain a)
    ((P.right.chain b).filter fun scope => scope ∉ slack.scopes)

/-- Code that is alike, in scopes where it meets the same partners and takes no notice of slack. -/
structure Fits (P : Pairs) (slack : Slack) (e : Value) (a : ScopeId) (e' : Value) (b : ScopeId) :
    Prop extends P.Stand slack a b where
  alike : e.Alike P.closure e'
  unaware : (∀ scope ∈ P.right.chain b, scope ∉ slack.scopes) ∨
    (∀ name ∈ slack.names, .symbol name ∉ e) ∧ .symbol (Form.keyword .define) ∉ e

theorem stand_empty_iff :
    P.Stand ∅ a b ↔ P.left.Has a ∧ P.right.Has b ∧
      List.Forall₂ P.scope (P.left.chain a) (P.right.chain b) := by
  have hplain : (P.right.chain b).filter (fun scope => scope ∉ (∅ : Slack).scopes) =
      P.right.chain b :=
    List.filter_eq_self.2 fun _ _ => decide_eq_true List.not_mem_nil
  constructor
  · rintro ⟨hleft, hright, hchain⟩
    exact ⟨hleft, hright, hplain ▸ hchain⟩
  · rintro ⟨hleft, hright, hchain⟩
    exact ⟨hleft, hright, hplain.symm ▸ hchain⟩

/-- Without slack, code fits if it is alike and its scopes stand alike. -/
theorem Stand.fits (h : P.Stand ∅ a b) (halike : e.Alike P.closure e') : P.Fits ∅ e a e' b where
  toStand := h
  alike := halike
  unaware := .inl fun _ _ => List.not_mem_nil

/-- Stores that have grown, with all partners that there were. -/
structure Included (P Q : Pairs) : Prop where
  left_le : P.left ≤ Q.left
  right_le : P.right ≤ Q.right
  scope : ∀ {a b}, P.scope a b → Q.scope a b
  closure : ∀ c d, P.closure c d → Q.closure c d

theorem Stand.mono (h : P.Stand slack a b) (hPQ : P.Included Q) : Q.Stand slack a b where
  left_has := h.left_has.mono hPQ.left_le
  right_has := h.right_has.mono hPQ.right_le
  chain := by
    rw [Store.chain_of_le hPQ.left_le h.left_has, Store.chain_of_le hPQ.right_le h.right_has]
    exact h.chain.imp fun _ _ => hPQ.scope

theorem Fits.mono (h : P.Fits slack e a e' b) (hPQ : P.Included Q) : Q.Fits slack e a e' b where
  toStand := h.toStand.mono hPQ
  alike := h.alike.mono hPQ.closure
  unaware := by
    rw [Store.chain_of_le hPQ.right_le h.right_has]
    exact h.unaware

/-- The items of a list fit where the list does. -/
theorem Fits.items {items items' : List Value} (h : P.Fits slack (.list items) a (.list items') b) :
    List.Forall₂ (fun e e' => P.Fits slack e a e' b) items items' := by
  refine Value.forall₂_imp_of_mem (Value.alike_list_iff.1 h.alike) fun item hitem item' halike => ?_
  refine ⟨h.toStand, halike, h.unaware.imp_right fun hunaware => ⟨fun name hname hmem => ?_,
    fun hmem => ?_⟩⟩
  · exact hunaware.1 name hname (Value.mem_list_of_mem hitem hmem)
  · exact hunaware.2 (Value.mem_list_of_mem hitem hmem)

/-! ### Steps of both stores -/

/-- A name gets bound in two scopes. -/
def define (P : Pairs) (a b : ScopeId) (name : String) (v v' : Value) : Pairs :=
  { P with left := P.left.define a name v, right := P.right.define b name v' }

theorem included_define (P : Pairs) (a b : ScopeId) (name : String) (v v' : Value) :
    P.Included (P.define a b name v v') :=
  ⟨Store.le_define .., Store.le_define .., id, fun _ _ => id⟩

/-- New scopes become partners. -/
def addScope (P : Pairs) (parent parent' : Option ScopeId) (own own' : Bindings Value) :
    Pairs where
  left := (P.left.addScope parent own).2
  right := (P.right.addScope parent' own').2
  scope a b := P.scope a b ∨
    a = (P.left.addScope parent own).1 ∧ b = (P.right.addScope parent' own').1
  closure := P.closure

theorem included_addScope (P : Pairs) (parent parent' : Option ScopeId)
    (own own' : Bindings Value) : P.Included (P.addScope parent parent' own own') :=
  ⟨Store.le_addScope .., Store.le_addScope .., .inl, fun _ _ => id⟩

/-- New scopes stand alike if both have no parent, or have parents that stand alike. -/
theorem stand_addScope {parent parent' : Option ScopeId}
    (hparent : Option.Rel (P.Stand slack) parent parent') {own own' : Bindings Value}
    (hnew : (P.right.addScope parent' own').1 ∉ slack.scopes) :
    (P.addScope parent parent' own own').Stand slack (P.left.addScope parent own).1
      (P.right.addScope parent' own').1 where
  left_has := Store.has_addScope ..
  right_has := Store.has_addScope ..
  chain := by
    change List.Forall₂ _ ((P.left.addScope parent own).2.chain _)
      (((P.right.addScope parent' own').2.chain _).filter _)
    cases hparent with
    | some h =>
      rw [Store.chain_addScope h.left_has, Store.chain_addScope h.right_has,
        List.filter_cons_of_pos (by simpa using hnew)]
      exact .cons (.inr ⟨rfl, rfl⟩) (h.chain.imp fun _ _ => .inl)
    | none =>
      rw [Store.chain_addScope_none, Store.chain_addScope_none,
        List.filter_cons_of_pos (by simpa using hnew)]
      exact .cons (.inr ⟨rfl, rfl⟩) .nil

/-- New closures become partners. -/
def addClosure (P : Pairs) (C D : Closure) : Pairs where
  left := (P.left.addClosure C).2
  right := (P.right.addClosure D).2
  scope := P.scope
  closure c d := P.closure c d ∨ c = (P.left.addClosure C).1 ∧ d = (P.right.addClosure D).1

theorem included_addClosure (P : Pairs) (C D : Closure) : P.Included (P.addClosure C D) :=
  ⟨Store.le_addClosure .., Store.le_addClosure .., id, fun _ _ => .inl⟩

end Pairs

/-- How a store goes on while some of its scopes have partners: all new scopes get partners, no old
ones do, and those without stay as they are. -/
structure Store.Continues (s t : Store) (before after : ScopeId → Prop) : Prop where
  le : s ≤ t
  keeps : ∀ {a}, before a → after a
  old : ∀ {a}, after a → s.Has a → before a
  new : ∀ {a}, t.Has a → s.Has a ∨ after a
  frame : ∀ {a}, s.Has a → ¬ before a → t.scope? a = s.scope? a

namespace Store.Continues
variable {s t u : Store} {before between after : ScopeId → Prop}

theorem refl : s.Continues s before before :=
  ⟨le_rfl, id, fun h _ => h, .inl, fun _ _ => rfl⟩

theorem trans (hst : s.Continues t before between) (htu : t.Continues u between after) :
    s.Continues u before after where
  le := le_trans hst.le htu.le
  keeps h := htu.keeps (hst.keeps h)
  old h hs := hst.old (htu.old h (hs.mono hst.le)) hs
  new h := (htu.new h).elim (fun ht => (hst.new ht).imp_right htu.keeps) .inr
  frame hs h :=
    (htu.frame (hs.mono hst.le) fun hbetween => h (hst.old hbetween hs)).trans (hst.frame hs h)

theorem define {a : ScopeId} (h : before a) (name : String) (value : Value) :
    s.Continues (s.define a name value) before before where
  le := le_define s a name value
  keeps := id
  old h _ := h
  new ht := .inl (by simpa [Has] using ht)
  frame _ hother := by
    rw [scope?_define, if_neg]
    rintro rfl
    exact hother h

theorem addScope {parent : Option ScopeId} {own : Bindings Value}
    (hafter : ∀ a, after a ↔ before a ∨ a = (s.addScope parent own).1) :
    s.Continues (s.addScope parent own).2 before after where
  le := le_addScope s parent own
  keeps h := (hafter _).2 (.inl h)
  old h hs := ((hafter _).1 h).resolve_right fun heq => not_has_addScope s parent own (heq ▸ hs)
  new ht := ((has_addScope_iff ..).1 ht).imp_right fun heq => (hafter _).2 (.inr heq)
  frame hs _ := scope?_addScope_of_has hs parent own

theorem addClosure (closure : Closure) : s.Continues (s.addClosure closure).2 before before :=
  ⟨le_addClosure s closure, id, fun h _ => h, .inl, fun _ _ => rfl⟩

end Store.Continues

/-- A correspondence of two stores. -/
structure Pairing (slack : Slack) extends Pairs where
  scope_unique : Partnership scope
  closure_unique : Partnership closure
  stand : ∀ {a b}, scope a b → toPairs.Stand slack a b
  contents : ∀ {a b}, scope a b → ∃ A B, left.scope? a = some A ∧ right.scope? b = some B ∧
    A.own.Related (Value.Alike closure) B.own
  parts : ∀ {c d}, closure c d → ∃ C D, left.closure? c = some C ∧ right.closure? d = some D ∧
    C.params = D.params ∧ toPairs.Fits slack C.body C.scope D.body D.scope
  slack_unpaired : ∀ {b}, b ∈ slack.scopes → right.Has b ∧ ∀ a, ¬ scope a b
  slack_own : ∀ {b name}, b ∈ slack.scopes → (right.own? b name).isSome → name ∈ slack.names

namespace Pairing
variable {slack : Slack} (W : Pairing slack) {a b : ScopeId} {e e' : Value}

/-- A later pairing has all partners of an earlier one, makes no partners of what was there, and changes
nothing without a partner. -/
structure Extends (W W' : Pairing slack) : Prop where
  left : W.left.Continues W'.left (fun a => ∃ b, W.scope a b) (fun a => ∃ b, W'.scope a b)
  right : W.right.Continues W'.right (fun b => ∃ a, W.scope a b) (fun b => ∃ a, W'.scope a b)
  scope : ∀ {a b}, W.scope a b → W'.scope a b
  closure : ∀ c d, W.closure c d → W'.closure c d
  closure_old : ∀ {c d}, W'.closure c d → W.left.HasClosure c ∨ W.right.HasClosure d →
    W.closure c d

instance : Preorder (Pairing slack) where
  le := Extends
  le_refl _ := ⟨.refl, .refl, id, fun _ _ => id, fun h _ => h⟩
  le_trans _ _ _ h h' := ⟨h.left.trans h'.left, h.right.trans h'.right,
    fun hab => h'.scope (h.scope hab), fun c d hcd => h'.closure c d (h.closure c d hcd),
    fun hcd hold => h.closure_old (h'.closure_old hcd
      (hold.imp (.mono · h.left.le) (.mono · h.right.le))) hold⟩

theorem Extends.included {W W' : Pairing slack} (h : W ≤ W') : W.Included W'.toPairs :=
  ⟨h.left.le, h.right.le, h.scope, h.closure⟩

variable {W}

theorem left_hasClosure {c d : ClosureId} (h : W.closure c d) : W.left.HasClosure c :=
  let ⟨C, _, hC, _⟩ := W.parts h
  Store.hasClosure_iff.2 ⟨C, hC⟩

theorem right_hasClosure {c d : ClosureId} (h : W.closure c d) : W.right.HasClosure d :=
  let ⟨_, D, _, hD, _⟩ := W.parts h
  Store.hasClosure_iff.2 ⟨D, hD⟩

/-- Partners bind a name to values that are alike, or both do not bind it. -/
theorem rel_own? (h : W.scope a b) (name : String) :
    Option.Rel (Value.Alike W.closure) (W.left.own? a name) (W.right.own? b name) := by
  obtain ⟨A, B, hA, hB, hown⟩ := W.contents h
  rw [Store.own?, Store.own?, hA, hB]
  exact hown name

/-! ### Lookup -/

/-- Slack on the chain of code binds nothing that the code mentions. -/
theorem own?_eq_none_of_slack (h : W.Fits slack e a e' b) {name : String}
    (hname : Value.symbol name ∈ e) {c : ScopeId} (hc : c ∈ W.right.chain b)
    (hslack : c ∈ slack.scopes) : W.right.own? c name = none := by
  rcases h.unaware with hnone | hunaware
  · exact absurd hslack (hnone c hc)
  · by_contra hown
    exact hunaware.1 name (W.slack_own hslack (Option.isSome_iff_ne_none.2 hown)) hname

/-- A name that code mentions is owned by partners, or by no scope on either chain. -/
theorem rel_owner? (h : W.Fits slack e a e' b) {name : String} (hname : Value.symbol name ∈ e) :
    Option.Rel W.scope (W.left.owner? a name) (W.right.owner? b name) := by
  have hright : W.right.owner? b name =
      ((W.right.chain b).filter fun scope => scope ∉ slack.scopes).find?
        fun scope => (W.right.own? scope name).isSome := by
    rw [Store.owner?, List.find?_filter]
    refine List.find?_congr fun c hc => ?_
    by_cases hslack : c ∈ slack.scopes
    · simp [hslack, own?_eq_none_of_slack h hname hc hslack]
    · simp [hslack]
  rw [hright, Store.owner?]
  have hchain := h.chain
  generalize W.left.chain a = xs, (W.right.chain b).filter _ = ys at hchain
  induction hchain with
  | nil => exact .none
  | @cons x y _ _ hxy _ ih =>
    have hown := W.rel_own? hxy name
    simp only [List.find?_cons]
    generalize W.left.own? x name = v, W.right.own? y name = v' at hown
    cases hown with
    | some => exact .some hxy
    | none => exact ih

theorem rel_get? (h : W.Fits slack e a e' b) {name : String} (hname : Value.symbol name ∈ e) :
    Option.Rel (Value.Alike W.closure) (W.left.get? a name) (W.right.get? b name) := by
  have howner := rel_owner? h hname
  rw [Store.get?_eq_owner?, Store.get?_eq_owner?]
  generalize W.left.owner? a name = x, W.right.owner? b name = y at howner
  cases howner with
  | some hxy => exact rel_own? hxy name
  | none => exact .none

/-! ### Steps of both stores -/

/-- A name gets bound in partners to values that are alike. -/
def define (W : Pairing slack) (hab : W.scope a b) (name : String) {v v' : Value}
    (hv : v.Alike W.closure v') : Pairing slack where
  toPairs := W.toPairs.define a b name v v'
  scope_unique := W.scope_unique
  closure_unique := W.closure_unique
  stand hxy := (W.stand hxy).mono (W.included_define ..)
  contents {x y} hxy := by
    obtain ⟨A, B, hA, hB, hown⟩ := W.contents hxy
    simp only [Pairs.define, Store.scope?_define]
    by_cases hx : x = a
    · obtain rfl := hx
      obtain rfl := (W.scope_unique hxy hab).1 rfl
      rw [if_pos rfl, if_pos rfl, hA, hB]
      exact ⟨_, _, rfl, rfl, hown.insert name hv⟩
    · rw [if_neg hx, if_neg fun hy => hx ((W.scope_unique hxy hab).2 hy)]
      exact ⟨A, B, hA, hB, hown⟩
  parts hcd := by
    obtain ⟨C, D, hC, hD, hparams, hbody⟩ := W.parts hcd
    exact ⟨C, D, hC, hD, hparams, hbody.mono (W.included_define ..)⟩
  slack_unpaired hy :=
    ⟨(W.slack_unpaired hy).1.mono (Store.le_define ..), (W.slack_unpaired hy).2⟩
  slack_own {y key} hy h := by
    refine W.slack_own hy ?_
    rwa [Pairs.define, Store.own?_define, if_neg] at h
    rintro ⟨rfl, -⟩
    exact (W.slack_unpaired hy).2 a hab

theorem le_define (hab : W.scope a b) (name : String) {v v' : Value} (hv : v.Alike W.closure v') :
    W ≤ W.define hab name hv :=
  ⟨.define ⟨b, hab⟩ name v, .define ⟨a, hab⟩ name v', id, fun _ _ => id, fun h _ => h⟩

theorem addScope_not_mem_slack (W : Pairing slack) (parent : Option ScopeId)
    (own : Bindings Value) : (W.right.addScope parent own).1 ∉ slack.scopes :=
  fun h => Store.not_has_addScope _ _ _ (W.slack_unpaired h).1

/-- New scopes become partners: both without parent, or inside scopes that stand alike. -/
def addScope (W : Pairing slack) {parent parent' : Option ScopeId}
    (hparent : Option.Rel (W.Stand slack) parent parent') {own own' : Bindings Value}
    (hown : own.Related (Value.Alike W.closure) own') : Pairing slack where
  toPairs := W.toPairs.addScope parent parent' own own'
  scope_unique := W.scope_unique.insert
    (fun _ h => Store.not_has_addScope _ _ _ (W.stand h).left_has)
    fun _ h => Store.not_has_addScope _ _ _ (W.stand h).right_has
  closure_unique := W.closure_unique
  stand {x y} hxy := by
    rcases hxy with hxy | ⟨rfl, rfl⟩
    · exact (W.stand hxy).mono (W.included_addScope ..)
    · exact Pairs.stand_addScope hparent (W.addScope_not_mem_slack _ _)
  contents {x y} hxy := by
    rcases hxy with hxy | ⟨rfl, rfl⟩
    · rw [Pairs.addScope, Store.scope?_addScope_of_has (W.stand hxy).left_has,
        Store.scope?_addScope_of_has (W.stand hxy).right_has]
      exact W.contents hxy
    · rw [Pairs.addScope, Store.scope?_addScope, Store.scope?_addScope, if_pos rfl, if_pos rfl]
      exact ⟨_, _, rfl, rfl, hown⟩
  parts hcd := by
    obtain ⟨C, D, hC, hD, hparams, hbody⟩ := W.parts hcd
    exact ⟨C, D, hC, hD, hparams, hbody.mono (W.included_addScope ..)⟩
  slack_unpaired {y} hy := by
    refine ⟨(W.slack_unpaired hy).1.mono (Store.le_addScope ..), fun x hxy => ?_⟩
    rcases hxy with hxy | ⟨rfl, rfl⟩
    · exact (W.slack_unpaired hy).2 x hxy
    · exact W.addScope_not_mem_slack _ _ hy
  slack_own {y key} hy h := by
    refine W.slack_own hy ?_
    rwa [Pairs.addScope, Store.own?, Store.scope?_addScope_of_has (W.slack_unpaired hy).1,
      ← Store.own?] at h

theorem le_addScope {parent parent' : Option ScopeId}
    (hparent : Option.Rel (W.Stand slack) parent parent') {own own' : Bindings Value}
    (hown : own.Related (Value.Alike W.closure) own') : W ≤ W.addScope hparent hown where
  left := .addScope fun x => by simp [addScope, Pairs.addScope, exists_or]
  right := .addScope fun y => by simp [addScope, Pairs.addScope, exists_or]
  scope := .inl
  closure _ _ := id
  closure_old h _ := h

/-- New closures become partners. -/
def addClosure (W : Pairing slack) {C D : Closure} (hparams : C.params = D.params)
    (hbody : W.Fits slack C.body C.scope D.body D.scope) : Pairing slack where
  toPairs := W.toPairs.addClosure C D
  scope_unique := W.scope_unique
  closure_unique := W.closure_unique.insert
    (fun _ h => Store.not_hasClosure_addClosure _ _ (left_hasClosure h))
    fun _ h => Store.not_hasClosure_addClosure _ _ (right_hasClosure h)
  stand hxy := (W.stand hxy).mono (W.included_addClosure ..)
  contents hxy := by
    obtain ⟨A, B, hA, hB, hown⟩ := W.contents hxy
    exact ⟨A, B, hA, hB, hown.mono fun _ _ h => h.mono fun _ _ => .inl⟩
  parts {c d} hcd := by
    have hincluded := W.included_addClosure C D
    rcases hcd with hcd | ⟨rfl, rfl⟩
    · obtain ⟨C', D', hC, hD, hparams', hbody'⟩ := W.parts hcd
      exact ⟨C', D', hincluded.left_le.closure hC, hincluded.right_le.closure hD, hparams',
        hbody'.mono hincluded⟩
    · rw [Pairs.addClosure, Store.closure?_addClosure, Store.closure?_addClosure, if_pos rfl,
        if_pos rfl]
      exact ⟨C, D, rfl, rfl, hparams, hbody.mono hincluded⟩
  slack_unpaired := W.slack_unpaired
  slack_own := W.slack_own

theorem le_addClosure {C D : Closure} (hparams : C.params = D.params)
    (hbody : W.Fits slack C.body C.scope D.body D.scope) : W ≤ W.addClosure hparams hbody where
  left := .addClosure C
  right := .addClosure D
  scope := id
  closure _ _ := .inl
  closure_old hcd hold := by
    rcases hcd with hcd | ⟨rfl, rfl⟩
    · exact hcd
    · exact (hold.elim (Store.not_hasClosure_addClosure _ _)
        (Store.not_hasClosure_addClosure _ _)).elim

/-! ### Steps elsewhere -/

/-- Partners stay partners in stores that have grown and are unchanged as far as partners and slack
go. -/
def elsewhere (W : Pairing slack) {s t : Store} (hs : W.left ≤ s) (ht : W.right ≤ t)
    (hleft : ∀ a b, W.scope a b → s.scope? a = W.left.scope? a)
    (hright : ∀ a b, W.scope a b → t.scope? b = W.right.scope? b)
    (hslack : ∀ b ∈ slack.scopes, t.scope? b = W.right.scope? b) : Pairing slack where
  left := s
  right := t
  scope := W.scope
  closure := W.closure
  scope_unique := W.scope_unique
  closure_unique := W.closure_unique
  stand hab := (W.stand hab).mono ⟨hs, ht, id, fun _ _ => id⟩
  contents {a b} hab := by
    rw [hleft a b hab, hright a b hab]
    exact W.contents hab
  parts hcd := by
    obtain ⟨C, D, hC, hD, hparams, hbody⟩ := W.parts hcd
    exact ⟨C, D, hs.closure hC, ht.closure hD, hparams, hbody.mono ⟨hs, ht, id, fun _ _ => id⟩⟩
  slack_unpaired hb := ⟨(W.slack_unpaired hb).1.mono ht, (W.slack_unpaired hb).2⟩
  slack_own {b name} hb h := by
    refine W.slack_own hb ?_
    rwa [Store.own?, hslack b hb, ← Store.own?] at h

end Pairing
end ScopedLisp
