import ScopedLisp.Proofs.Pairing.Inclusion
import ScopedLisp.Proofs.Scopes.Region

/-! # Pairings compose

A pairing without slack can be read backwards, two of them can be read one after the other, and two
of the same stores make one if partners stay unique. So an evaluation can be compared with itself
run from another store: if it leaves all that was there as it was, it makes the same in any later
store in which that is intact. And two evaluations of this kind commute. Whichever is run first, what
the one makes is paired by its own comparison and what the other makes by that of the other. -/

namespace ScopedLisp

namespace Pairs
variable {P Q : Pairs} {a b c : ScopeId} {e e' e'' : Value}

/-- The stores the other way round. -/
def symm (P : Pairs) : Pairs where
  left := P.right
  right := P.left
  scope b a := P.scope a b
  closure d c := P.closure c d

theorem Stand.symm (h : P.Stand ∅ a b) : P.symm.Stand ∅ b a := by
  obtain ⟨hleft, hright, hchain⟩ := stand_empty_iff.1 h
  exact stand_empty_iff.2 ⟨hright, hleft, hchain.flip⟩

theorem Fits.symm (h : P.Fits ∅ e a e' b) : P.symm.Fits ∅ e' b e a :=
  h.toStand.symm.fits h.alike.symm

/-- The first and the last one of three stores, with partners by way of the second one. -/
def trans (P Q : Pairs) : Pairs where
  left := P.left
  right := Q.right
  scope a c := ∃ b, P.scope a b ∧ Q.scope b c
  closure c e := ∃ d, P.closure c d ∧ Q.closure d e

theorem Stand.trans (hPQ : P.right = Q.left) (h : P.Stand ∅ a b) (h' : Q.Stand ∅ b c) :
    (P.trans Q).Stand ∅ a c := by
  obtain ⟨hleft, -, hchain⟩ := stand_empty_iff.1 h
  obtain ⟨-, hright, hchain'⟩ := stand_empty_iff.1 h'
  exact stand_empty_iff.2 ⟨hleft, hright, Value.forall₂_comp (hPQ ▸ hchain) hchain'⟩

theorem Fits.trans (hPQ : P.right = Q.left) (h : P.Fits ∅ e a e' b) (h' : Q.Fits ∅ e' b e'' c) :
    (P.trans Q).Fits ∅ e a e'' c :=
  (h.toStand.trans hPQ h'.toStand).fits (h.alike.trans h'.alike)

end Pairs

namespace Pairing
variable {W V : Pairing ∅} {s t u : Store} {a : ScopeId} {e : Value}

/-- A pairing read backwards. -/
def symm (W : Pairing ∅) : Pairing ∅ where
  toPairs := W.toPairs.symm
  scope_unique := W.scope_unique.symm
  closure_unique := W.closure_unique.symm
  stand hab := (W.stand hab).symm
  contents hab := by
    obtain ⟨A, B, hA, hB, hown⟩ := W.contents hab
    exact ⟨B, A, hB, hA, hown.symm.mono fun _ _ h => h.symm⟩
  parts hcd := by
    obtain ⟨C, D, hC, hD, hparams, hbody⟩ := W.parts hcd
    exact ⟨D, C, hD, hC, hparams.symm, hbody.symm⟩
  slack_unpaired := nofun
  slack_own := nofun

/-- Two pairings one after the other. -/
def trans (W V : Pairing ∅) (hWV : W.right = V.left) : Pairing ∅ where
  toPairs := W.toPairs.trans V.toPairs
  scope_unique := W.scope_unique.trans V.scope_unique
  closure_unique := W.closure_unique.trans V.closure_unique
  stand := by
    rintro a c ⟨b, hab, hbc⟩
    exact (W.stand hab).trans hWV (V.stand hbc)
  contents := by
    rintro a c ⟨b, hab, hbc⟩
    obtain ⟨A, B, hA, hB, hown⟩ := W.contents hab
    obtain ⟨B', C, hB', hC, hown'⟩ := V.contents hbc
    obtain rfl : B = B' := Option.some.inj (hB.symm.trans (hWV ▸ hB'))
    refine ⟨A, C, hA, hC, (hown.trans hown').mono ?_⟩
    rintro v v'' ⟨v', hv, hv'⟩
    exact hv.trans hv'
  parts := by
    rintro c e ⟨d, hcd, hde⟩
    obtain ⟨C, D, hC, hD, hparams, hbody⟩ := W.parts hcd
    obtain ⟨D', E, hD', hE, hparams', hbody'⟩ := V.parts hde
    obtain rfl : D = D' := Option.some.inj (hD.symm.trans (hWV ▸ hD'))
    exact ⟨C, E, hC, hE, hparams.trans hparams', hbody.trans hWV hbody'⟩
  slack_unpaired := nofun
  slack_own := nofun

theorem Spans.trans (hW : W.Spans s) (hV : V.Spans s) (hWV : W.right = V.left) :
    (W.trans V hWV).Spans s where
  scope a ha := ⟨a, hW.scope a ha, hV.scope a ha⟩
  closure c hc := ⟨c, hW.closure c hc, hV.closure c hc⟩
  left a ha := by
    obtain ⟨b, hab⟩ := hW.left a ha
    obtain ⟨c, hbc⟩ := hV.left b (hWV ▸ (W.stand hab).right_has)
    exact ⟨c, b, hab, hbc⟩
  right c hc := by
    obtain ⟨b, hbc⟩ := (hV.right c hc).resolve_left List.not_mem_nil
    have hb : W.right.Has b := hWV ▸ (V.stand hbc).left_has
    obtain ⟨a, hab⟩ := (hW.right b hb).resolve_left List.not_mem_nil
    exact .inr ⟨a, b, hab, hbc⟩

theorem Spans.of_le (h : W.Spans t) (hst : s ≤ t) : W.Spans s where
  scope a ha := h.scope a (ha.mono hst)
  closure c hc := h.closure c (hc.mono hst)
  left := h.left
  right := h.right

theorem Spans.alike (h : W.Spans s) (he : s.Closed e) : e.Alike W.closure e :=
  .refl fun c hc => h.closure c (he c hc)

/-- Code of a store that is spanned fits beside itself. -/
theorem Spans.fits (h : W.Spans s) (ha : s.Has a) (he : s.Closed e) : W.Fits ∅ e a e a :=
  (W.stand (h.scope a ha)).fits (h.alike he)

/-- Two pairings of the same stores. -/
def union (W V : Pairing ∅) (hleft : V.left = W.left) (hright : V.right = W.right)
    (hscope : Partnership fun a b => W.scope a b ∨ V.scope a b)
    (hclosure : Partnership fun c d => W.closure c d ∨ V.closure c d) : Pairing ∅ where
  left := W.left
  right := W.right
  scope a b := W.scope a b ∨ V.scope a b
  closure c d := W.closure c d ∨ V.closure c d
  scope_unique := hscope
  closure_unique := hclosure
  stand := by
    rintro a b (hab | hab)
    · exact (W.stand hab).mono ⟨le_rfl, le_rfl, .inl, fun _ _ => .inl⟩
    · exact (V.stand hab).mono ⟨hleft.le, hright.le, .inr, fun _ _ => .inr⟩
  contents := by
    rintro a b (hab | hab)
    · obtain ⟨A, B, hA, hB, hown⟩ := W.contents hab
      exact ⟨A, B, hA, hB, hown.mono fun _ _ h => h.mono fun _ _ => .inl⟩
    · obtain ⟨A, B, hA, hB, hown⟩ := V.contents hab
      exact ⟨A, B, hleft ▸ hA, hright ▸ hB, hown.mono fun _ _ h => h.mono fun _ _ => .inr⟩
  parts := by
    rintro c d (hcd | hcd)
    · obtain ⟨C, D, hC, hD, hparams, hbody⟩ := W.parts hcd
      exact ⟨C, D, hC, hD, hparams, hbody.mono ⟨le_rfl, le_rfl, .inl, fun _ _ => .inl⟩⟩
    · obtain ⟨C, D, hC, hD, hparams, hbody⟩ := V.parts hcd
      exact ⟨C, D, hleft ▸ hC, hright ▸ hD, hparams,
        hbody.mono ⟨hleft.le, hright.le, .inr, fun _ _ => .inr⟩⟩
  slack_unpaired := nofun
  slack_own := nofun

/-! ### The same evaluation from another store -/

/-- A store beside one in which it is intact. -/
def beside (hs : s.WellFormed) (hsu : s.IntactIn u) : Pairing ∅ :=
  ofIncluded hs hsu.le (fun _ => hsu.scope) nofun nofun

theorem spans_beside (hs : s.WellFormed) : (beside hs .refl).Spans s where
  scope _ ha := ⟨rfl, ha⟩
  closure _ hc := ⟨rfl, hc⟩
  left a ha := ⟨a, rfl, ha⟩
  right b hb := .inr ⟨b, rfl, hb⟩

theorem fits_beside (hs : s.WellFormed) (hsu : s.IntactIn u) (ha : s.Has a) (he : s.Closed e) :
    (beside hs hsu).Fits ∅ e a e a :=
  Pairs.fits_same hsu.le nofun ha he

/-- What ends with a value in a store does so in any store in which that one is intact. -/
theorem exists_ok_beside (hs : s.WellFormed) (hsu : s.IntactIn u) (ha : s.Has a) (he : s.Closed e)
    {depth : Nat} {v : Value} (hends : Evaluator.within depth e a s = .ok v t) :
    ∃ (v' : Value) (W : Pairing ∅), beside hs hsu ≤ W ∧ W.left = t ∧
      Evaluator.within depth e a u = .ok v' W.right ∧ v.Alike W.closure v' := by
  have hrun := Simulation.respects_within (S := simulation ∅) depth (fits_beside hs hsu ha he)
  change (correspondence ∅).OutcomesAgree _ _ (Evaluator.within depth e a s)
    (Evaluator.within depth e a u) at hrun
  rw [hends] at hrun
  obtain ⟨v', W, hagain, hW, hleft, hv⟩ := hrun.exists_of_ok
  exact ⟨v', W, hW, hleft, hagain, hv⟩

section Beside
variable {hs : s.WellFormed} {hsu : s.IntactIn u}

theorem scope_of_beside (hW : beside hs hsu ≤ W) {b : ScopeId} (hb : s.Has b) : W.scope b b :=
  hW.scope ⟨rfl, hb⟩

theorem closure_of_beside (hW : beside hs hsu ≤ W) {c : ClosureId} (hc : s.HasClosure c) :
    W.closure c c :=
  hW.closure c c ⟨rfl, hc⟩

/-- Where a store is intact on the left, the one beside it is intact on the right. -/
theorem intactIn_of_beside (hW : beside hs hsu ≤ W) (hintact : s.IntactIn W.left) :
    u.IntactIn W.right where
  le := hW.right.le
  scope {b} hb := by
    by_cases hold : s.Has b
    · obtain ⟨⟨parent, own⟩, ⟨parent', own'⟩, hleft, hright, hown⟩ :=
        W.contents (scope_of_beside hW hold)
      have hs' : s.scope? b = some ⟨parent, own⟩ := (hintact.scope hold).symm.trans hleft
      have hu : u.scope? b = some ⟨parent, own⟩ := (hsu.scope hold).trans hs'
      have hle : u ≤ W.right := hW.right.le
      obtain rfl : parent' = parent := by
        simpa only [Store.parent?, hright, hu, Option.bind_some] using Store.parent?_of_le hle hb
      obtain rfl : own = own' := by
        refine hown.eq_of fun name v v' hv halike => halike.eq_of fun c d hc hcd => ?_
        have hclosed : s.Closed v := hs.bound ((Store.own?_of_scope? hs' name).trans hv)
        exact (W.closure_unique (closure_of_beside hW (hclosed c hc)) hcd).1 rfl
      exact hright.trans hu.symm
    · refine hW.right.frame hb ?_
      rintro ⟨_, rfl, h⟩
      exact hold h

/-! ### Two evaluations in either order -/

/-- Partners of what was made in one place, where only old things have old partners. -/
structure Anew {α : Type} (R : α → α → Prop) (old made met : α → Prop) : Prop where
  unique : Partnership R
  keeps : ∀ {x}, old x → R x x
  made_of : ∀ {x y}, R x y → made x
  old_of_met : ∀ {x y}, R x y → met y → old y

/-- What was made in two places one after the other, in either order, has partners that are unique. -/
theorem Anew.partnership {α : Type} {R S : α → α → Prop} {old left right : α → Prop}
    (hR : Anew R old left right) (hS : Anew S old right left) :
    Partnership fun x y => R x y ∨ S y x := by
  -- a thing with partners both ways is an old one, its own partner
  have hmeet {x y z} (hxy : R x y) (hzx : S z x) : z = y := by
    have hold := hS.old_of_met hzx (hR.made_of hxy)
    exact ((hS.unique hzx (hS.keeps hold)).2 rfl).trans ((hR.unique hxy (hR.keeps hold)).1 rfl).symm
  have hmeet' {x y z} (hxy : R x y) (hyz : S y z) : z = x := by
    have hold := hR.old_of_met hxy (hS.made_of hyz)
    exact ((hS.unique hyz (hS.keeps hold)).1 rfl).trans ((hR.unique hxy (hR.keeps hold)).2 rfl).symm
  rintro x y x' y' (hxy | hyx) (hxy' | hyx')
  · exact hR.unique hxy hxy'
  · exact ⟨fun heq => (hmeet (heq ▸ hxy) hyx').symm, fun heq => (hmeet' (heq ▸ hxy) hyx').symm⟩
  · exact ⟨fun heq => hmeet (heq ▸ hxy') hyx, fun heq => hmeet' (heq ▸ hxy') hyx⟩
  · exact (hS.unique hyx hyx').symm

theorem anew_scope (hW : beside hs hsu ≤ W) : Anew W.scope s.Has W.left.Has u.Has where
  unique := W.scope_unique
  keeps := scope_of_beside hW
  made_of hab := (W.stand hab).left_has
  old_of_met {a b} hab hb := by
    obtain ⟨_, rfl, hold⟩ := hW.right.old ⟨a, hab⟩ hb
    exact hold

theorem anew_closure (hW : beside hs hsu ≤ W) :
    Anew W.closure s.HasClosure W.left.HasClosure u.HasClosure where
  unique := W.closure_unique
  keeps := closure_of_beside hW
  made_of := left_hasClosure
  old_of_met hcd hd := by
    obtain ⟨rfl, hold⟩ := hW.closure_old hcd (.inr hd)
    exact hold

/-- Two evaluations that were run one after the other, once in this order and once in that. What the
one made last is paired by the comparison with what it makes at first, and so is what the other made
last. -/
def cross (ht : s.IntactIn W.left) (hu : s.IntactIn V.left) (hW : beside hs hu ≤ W)
    (hV : beside hs ht ≤ V) : Pairing ∅ :=
  have hleft : W.left.IntactIn V.right := intactIn_of_beside hV hu
  have hright : V.left.IntactIn W.right := intactIn_of_beside hW ht
  (W.elsewhere (s := V.right) (t := W.right) hleft.le le_rfl
    (fun _ _ hab => hleft.scope (W.stand hab).left_has) (fun _ _ _ => rfl) nofun).union
    (V.symm.elsewhere (s := V.right) (t := W.right) le_rfl hright.le (fun _ _ _ => rfl)
      (fun _ _ hab => hright.scope (V.stand hab).left_has) nofun) rfl rfl
    ((anew_scope hW).partnership (anew_scope hV)) ((anew_closure hW).partnership (anew_closure hV))

theorem spans_cross (ht : s.IntactIn W.left) (hu : s.IntactIn V.left) (hW : beside hs hu ≤ W)
    (hV : beside hs ht ≤ V) : (cross ht hu hW hV).Spans s where
  scope a ha := .inl (scope_of_beside hW ha)
  closure c hc := .inl (closure_of_beside hW hc)
  left a ha := by
    rcases hV.right.new ha with ha | ⟨b, hab⟩
    · rcases hW.left.new ha with ha | ⟨b, hab⟩
      · exact ⟨a, .inl (scope_of_beside hW ha)⟩
      · exact ⟨b, .inl hab⟩
    · exact ⟨b, .inr hab⟩
  right b hb := by
    rcases hW.right.new hb with hb | ⟨a, hab⟩
    · rcases hV.left.new hb with hb | ⟨a, hab⟩
      · exact .inr ⟨b, .inl (scope_of_beside hW hb)⟩
      · exact .inr ⟨a, .inr hab⟩
    · exact .inr ⟨a, .inl hab⟩

end Beside

end Pairing
end ScopedLisp
