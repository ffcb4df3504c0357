import ScopedLisp.Proofs.Evaluation.Completeness
import ScopedLisp.Proofs.Simulation.Agreement

/-! # The fate of evaluations

An evaluation diverges or ends with a result or an error. Two evaluations that agree within all great
depths have the same fate. -/

namespace ScopedLisp

/-- Evaluation that does not end, however deeply it may be nested. -/
def Diverges (e : Value) (a : ScopeId) (s : Store) : Prop :=
  ∀ depth, Evaluator.within depth e a s = .tooDeep

/-- Evaluations that both diverge, or both end so that a relation holds. -/
def SameFate (R : Except EvalError Value → Store → Except EvalError Value → Store → Prop)
    (e : Value) (a : ScopeId) (s : Store) (e' : Value) (b : ScopeId) (t : Store) : Prop :=
  Diverges e a s ∧ Diverges e' b t ∨
    ∃ r u r' u', Evaluates e a s r u ∧ Evaluates e' b t r' u' ∧ R r u r' u'

variable {e e' : Value} {a b : ScopeId} {s t : Store}

theorem SameFate.mono {R R' : Except EvalError Value → Store → Except EvalError Value → Store → Prop}
    (h : SameFate R e a s e' b t) (hR : ∀ r u r' u', R r u r' u' → R' r u r' u') :
    SameFate R' e a s e' b t :=
  h.imp_right fun ⟨r, u, r', u', hleft, hright, hrel⟩ =>
    ⟨r, u, r', u', hleft, hright, hR r u r' u' hrel⟩

open Filter

/-- An evaluation that ends within some depth does so within all greater ones. -/
theorem eventually_ne_tooDeep (h : ¬ Diverges e a s) :
    ∀ᶠ depth in atTop, Evaluator.within depth e a s ≠ .tooDeep := by
  obtain ⟨depth, hends⟩ := Classical.not_forall.1 h
  obtain ⟨r, t, heval⟩ : ∃ r t, Evaluates e a s r t := by
    cases hresult : Evaluator.within depth e a s with
    | ok v t => exact ⟨.ok v, t, Evaluator.within_sound depth hresult⟩
    | error cause t => exact ⟨.error cause, t, Evaluator.within_sound depth hresult⟩
    | tooDeep => exact absurd hresult hends
  filter_upwards [heval.eventually] with deeper hdeeper
  exact hdeeper ▸ Outcome.tooDeep_ne_ended.symm

/-- Evaluations have the same fate if within all great depths both are given up, or both end so that a
relation holds. -/
theorem SameFate.of_eventually
    {R : Except EvalError Value → Store → Except EvalError Value → Store → Prop}
    (h : ∀ᶠ depth in atTop,
      Evaluator.within depth e a s = .tooDeep ∧ Evaluator.within depth e' b t = .tooDeep ∨
        ∃ r u r' u', Evaluator.within depth e a s = .ended r u ∧
          Evaluator.within depth e' b t = .ended r' u' ∧ R r u r' u') :
    SameFate R e a s e' b t := by
  by_cases hdiverge : Diverges e a s ∧ Diverges e' b t
  · exact .inl hdiverge
  · have hends : ∀ᶠ depth in atTop, Evaluator.within depth e a s ≠ .tooDeep ∨
        Evaluator.within depth e' b t ≠ .tooDeep := by
      rcases not_and_or.1 hdiverge with hleft | hright
      · exact (eventually_ne_tooDeep hleft).mono fun _ => .inl
      · exact (eventually_ne_tooDeep hright).mono fun _ => .inr
    obtain ⟨depth, hends, ⟨hleft, hright⟩ | ⟨r, u, r', u', hleft, hright, hrel⟩⟩ :=
      (hends.and h).exists
    · exact (hends.elim (· hleft) (· hright)).elim
    · exact .inr ⟨r, u, r', u', Evaluator.within_sound depth hleft,
        Evaluator.within_sound depth hright, hrel⟩

theorem Correspondence.sameFate_of_agree {World : Type} [Preorder World] {S : Correspondence World}
    {w : World} (h : ∀ depth, S.OutcomesAgree w S.value (Evaluator.within depth e a s)
      (Evaluator.within depth e' b t)) :
    SameFate (fun r u r' u' => S.Later w u u' fun w' => ResultsRelated (S.value w') r r')
      e a s e' b t :=
  .of_eventually (.of_forall fun depth => (h depth).cases)

end ScopedLisp
