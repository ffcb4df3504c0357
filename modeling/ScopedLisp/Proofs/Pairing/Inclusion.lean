import ScopedLisp.Proofs.Pairing.Simulation
import ScopedLisp.Proofs.Simulation.Fate

/-! # Pairing a store with one that includes it

A store is paired with one that has the same scopes and closures and perhaps more of them: whatever
is in the first store is its own partner. Evaluations that start there end with results and stores
that correspond, which is to say that they are the same up to the identity of what was made in the
meantime. -/

namespace ScopedLisp

variable {slack : Slack} {s t : Store} {a b : ScopeId} {e e' : Value}

/-- Two stores in which everything in the first one is its own partner. -/
def Pairs.same (s t : Store) : Pairs where
  left := s
  right := t
  scope a b := a = b ∧ s.Has a
  closure c d := c = d ∧ s.HasClosure c

theorem Pairs.forall₂_chain_same (ha : s.Has a) :
    List.Forall₂ (Pairs.same s t).scope (s.chain a) (s.chain a) :=
  List.forall₂_same.2 fun _ hb => ⟨rfl, Store.has_of_mem_chain ha hb⟩

theorem Pairs.not_mem_slack_of_mem_chain (hst : s ≤ t) (hslack : ∀ b ∈ slack.scopes, ¬ s.Has b)
    (ha : s.Has a) : ∀ b ∈ t.chain a, b ∉ slack.scopes := by
  intro b hb hmem
  rw [Store.chain_of_le hst ha] at hb
  exact hslack b hmem (Store.has_of_mem_chain ha hb)

theorem Pairs.stand_same (hst : s ≤ t) (hslack : ∀ b ∈ slack.scopes, ¬ s.Has b) (ha : s.Has a) :
    (Pairs.same s t).Stand slack a a where
  left_has := ha
  right_has := ha.mono hst
  chain := by
    have hplain := not_mem_slack_of_mem_chain hst hslack ha
    change List.Forall₂ _ (s.chain a) ((t.chain a).filter _)
    rw [List.filter_eq_self.2 (by simpa using hplain), Store.chain_of_le hst ha]
    exact forall₂_chain_same ha

/-- Code of a store fits in a store that includes it. -/
theorem Pairs.fits_same (hst : s ≤ t) (hslack : ∀ b ∈ slack.scopes, ¬ s.Has b) (ha : s.Has a)
    (he : s.Closed e) : (Pairs.same s t).Fits slack e a e a where
  toStand := stand_same hst hslack ha
  alike := .refl fun c hc => ⟨rfl, he c hc⟩
  unaware := .inl (not_mem_slack_of_mem_chain hst hslack ha)

namespace Pairing
variable {W W' : Pairing slack}

/-- A store and one that includes it, where slack is part of the second one only. -/
def ofIncluded (hs : s.WellFormed) (hst : s ≤ t) (hsame : ∀ a, s.Has a → t.scope? a = s.scope? a)
    (hslack : ∀ b ∈ slack.scopes, t.Has b ∧ ¬ s.Has b)
    (hnames : ∀ b ∈ slack.scopes, ∀ name, (t.own? b name).isSome → name ∈ slack.names) :
    Pairing slack where
  toPairs := .same s t
  scope_unique := by
    rintro a _ a' _ ⟨rfl, -⟩ ⟨rfl, -⟩
    rfl
  closure_unique := by
    rintro c _ c' _ ⟨rfl, -⟩ ⟨rfl, -⟩
    rfl
  stand := by
    rintro a _ ⟨rfl, ha⟩
    exact Pairs.stand_same hst (fun b hb => (hslack b hb).2) ha
  contents := by
    rintro a _ ⟨rfl, ha⟩
    obtain ⟨scope, hscope⟩ := Store.has_iff.1 ha
    refine ⟨scope, scope, hscope, (hsame a ha).trans hscope, .self fun name value hvalue => ?_⟩
    have hown : s.own? a name = some value := (Store.own?_of_scope? hscope name).trans hvalue
    exact .refl fun c hc => ⟨rfl, hs.bound hown c hc⟩
  parts := by
    rintro c _ ⟨rfl, hc⟩
    obtain ⟨C, hC⟩ := Store.hasClosure_iff.1 hc
    obtain ⟨hscope, hbody⟩ := hs.captured hC
    exact ⟨C, C, hC, hst.closure hC, rfl,
      Pairs.fits_same hst (fun b hb => (hslack b hb).2) hscope hbody⟩
  slack_unpaired {b} hb := by
    refine ⟨(hslack b hb).1, ?_⟩
    rintro _ ⟨rfl, ha⟩
    exact (hslack _ hb).2 ha
  slack_own hb := hnames _ hb _

/-- Whatever was in a store is its own partner, and every scope but slack has a partner. -/
structure Spans (W : Pairing slack) (s : Store) : Prop where
  scope : ∀ a, s.Has a → W.scope a a
  closure : ∀ c, s.HasClosure c → W.closure c c
  left : ∀ a, W.left.Has a → ∃ b, W.scope a b
  right : ∀ b, W.right.Has b → b ∈ slack.scopes ∨ ∃ a, W.scope a b

theorem Spans.mono (h : W.Spans s) (hW : W ≤ W') : W'.Spans s where
  scope a ha := hW.scope (h.scope a ha)
  closure c hc := hW.closure c c (h.closure c hc)
  left a ha := (hW.left.new ha).elim (fun ha => (h.left a ha).imp fun _ => hW.scope) id
  right b hb :=
    (hW.right.new hb).elim (fun hb => (h.right b hb).imp_right (Exists.imp fun _ => hW.scope)) .inr

end Pairing

/-- Results and stores that are the same up to the identity of what was made after a store, and up to
slack. -/
def Corresponds (slack : Slack) (s : Store) (r : Except EvalError Value) (u : Store)
    (r' : Except EvalError Value) (u' : Store) : Prop :=
  ∃ W : Pairing slack, W.left = u ∧ W.right = u' ∧ W.Spans s ∧
    ResultsRelated (Value.Alike W.closure) r r'

end ScopedLisp
