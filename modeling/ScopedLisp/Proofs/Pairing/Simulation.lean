import ScopedLisp.Proofs.Pairing.Basic

/-! # Evaluation keeps pairings

Pairings are worlds of a simulation: values correspond if they are alike up to partners, and code
where it fits. So evaluation of code that fits, in paired stores, leads to later paired stores. -/

namespace ScopedLisp.Pairing
variable {slack : Slack} {W : Pairing slack} {a b : ScopeId} {e e' : Value}

/-- Code that fits somewhere fits in new scopes inside. -/
theorem fits_addScope (h : W.Fits slack e a e' b) {own own' : Bindings Value}
    (hown : own.Related (Value.Alike W.closure) own') :
    (W.addScope (.some h.toStand) hown).Fits slack e (W.left.addScope (some a) own).1 e'
      (W.right.addScope (some b) own').1 where
  toStand := Pairs.stand_addScope (.some h.toStand) (W.addScope_not_mem_slack _ _)
  alike := h.alike
  unaware := by
    change (∀ scope ∈ (W.right.addScope (some b) own').2.chain _, _) ∨ _
    rw [Store.chain_addScope h.right_has, List.forall_mem_cons]
    exact h.unaware.imp_left fun hnone => ⟨W.addScope_not_mem_slack _ _, hnone⟩

/-- Code that defines something stands in scopes that are partners themselves. -/
theorem scope_of_define {targets targets' : List Value}
    (h : W.Fits slack (.list (.symbol (Form.keyword .define) :: targets)) a
      (.list (.symbol (Form.keyword .define) :: targets')) b) : W.scope a b := by
  rcases h.unaware with hnone | hunaware
  · have hchain := h.chain
    rw [List.filter_eq_self.2 (by simpa using hnone), Store.chain, Store.chain] at hchain
    exact (List.forall₂_cons.1 hchain).1
  · exact absurd (Value.mem_list_of_mem List.mem_cons_self (Value.mem_self _)) hunaware.2

/-- Values that are alike up to partners, and code that fits. -/
def correspondence (slack : Slack) : Correspondence (Pairing slack) where
  left W := W.left
  right W := W.right
  value W := Value.Alike W.closure
  code W := W.Fits slack

theorem later_addScope (h : W.Fits slack e a e' b) {own own' : Bindings Value}
    (hown : own.Related (Value.Alike W.closure) own') :
    (correspondence slack).Later W (W.left.addScope (some a) own).2
      (W.right.addScope (some b) own').2 fun W' => W'.Fits slack e
        (W.left.addScope (some a) own).1 e' (W.right.addScope (some b) own').1 :=
  ⟨W.addScope (.some h.toStand) hown, le_addScope .., rfl, rfl, fits_addScope h hown⟩

/-- Pairings are a simulation. -/
def simulation (slack : Slack) : Simulation (Pairing slack) where
  toCorrespondence := correspondence slack
  value_mono hW h := h.mono (Extends.included hW).closure
  code_mono hW h := h.mono (Extends.included hW)
  alike {W _ _} h := h.mono fun c d hcd => by
    obtain ⟨C, D, hC, hD, hparams, -⟩ := W.parts hcd
    simp only [correspondence, hC, hD, Option.map_some, hparams]
  code_value h := h.alike
  code_items h := h.items
  number _ := .number
  boolean _ := .boolean
  gather _ h := .list h
  lookup h _ := rel_get? h (Value.mem_self _)
  define {W name _ _ _ _ _ _} h _ hv :=
    ⟨W.define (scope_of_define h) name hv, le_define .., rfl, rfl, trivial⟩
  assign {W name expr a expr' b v v'} h _ hv := by
    have howner : Option.Rel W.scope (W.left.owner? a name) (W.right.owner? b name) :=
      rel_owner? h (by simp)
    change Option.Rel _ ((W.left.owner? a name).map _) ((W.right.owner? b name).map _)
    generalize W.left.owner? a name = x, W.right.owner? b name = y at howner
    cases howner with
    | some hxy => exact .some ⟨W.define hxy name hv, le_define .., rfl, rfl, trivial⟩
    | none => exact .none
  child h hown _ := later_addScope h hown
  lambda {W _ body a _ body' b params} h _ _ := by
    have hbody : W.Fits slack body a body' b := by
      match h.items with
      | .cons _ (.cons _ (.cons hbody .nil)) => exact hbody
    exact ⟨W.addClosure (C := ⟨params, body, a⟩) (D := ⟨params, body', b⟩) rfl hbody,
      le_addClosure .., rfl, rfl, .closure (.inr ⟨rfl, rfl⟩)⟩
  call {W c d C D} h hC hD args args' hargs _ := by
    obtain ⟨C', D', hC', hD', hparams, hbody⟩ := W.parts (Value.alike_closure_iff.1 h)
    obtain rfl := Option.some.inj (hC.symm.trans hC')
    obtain rfl := Option.some.inj (hD.symm.trans hD')
    rw [← hparams]
    exact later_addScope hbody (.ofList_zip C.params hargs)

end ScopedLisp.Pairing
