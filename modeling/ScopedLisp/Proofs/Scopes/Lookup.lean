import Mathlib.Logic.Relation
import ScopedLisp.Proofs.Scopes.WellFormed

/-! # Lookup and assignment

A scope sees another one for a name if the way up to it passes no scope that binds the name. The
nearest scope that binds a name is what lookup reads and assignment writes. So a definition is
observed where its scope is seen for the name, an assignment where the nearest scopes are the same,
and whatever else is looked up, from anywhere, is not affected. -/

namespace ScopedLisp.Store
variable {s t : Store} {a b p : ScopeId} {name key : String} {v : Value}

/-- Whether the way up from one scope to another passes no binding of a name. -/
def Sees (s : Store) (name : String) : ScopeId → ScopeId → Prop :=
  Relation.ReflTransGen fun a p => s.parent? a = some p ∧ s.own? a name = none

/-- Whether a scope is the nearest one, from some scope, that binds a name. -/
def Nearest (s : Store) (name : String) (a owner : ScopeId) : Prop :=
  s.Sees name a owner ∧ (s.own? owner name).isSome

theorem sees_iff : s.Sees name a b ↔
    a = b ∨ ∃ p, (s.parent? a = some p ∧ s.own? a name = none) ∧ s.Sees name p b := by
  rw [Sees, Relation.ReflTransGen.cases_head_iff]

/-! ### The recursion of lookup -/

namespace Layered

/-- A name means what the scope binds it to, or else what it means in the parent. -/
theorem get?_eq (hs : s.Layered) (a : ScopeId) (name : String) :
    s.get? a name = (s.own? a name).or ((s.parent? a).bind fun p => s.get? p name) := by
  rw [get?, hs.chain_eq, List.findSome?_cons]
  cases s.own? a name with
  | some v => rfl
  | none => cases s.parent? a <;> rfl

theorem owner?_eq (hs : s.Layered) (a : ScopeId) (name : String) :
    s.owner? a name =
      if (s.own? a name).isSome then some a else (s.parent? a).bind fun p => s.owner? p name := by
  rw [owner?, hs.chain_eq, List.find?_cons]
  cases s.own? a name with
  | some v => rfl
  | none => cases s.parent? a <;> rfl

theorem define (hs : s.Layered) (a : ScopeId) (name : String) (v : Value) :
    (s.define a name v).Layered := by
  intro b p h
  rw [parent?_define] at h
  exact hs h

/-- Assignment writes to the nearest scope that binds the name. -/
theorem owner?_eq_some_iff (hs : s.Layered) :
    s.owner? a name = some b ↔ s.Nearest name a b := by
  induction a using hs.induction with
  | h a ih =>
    rw [hs.owner?_eq, Nearest, sees_iff]
    cases hown : s.own? a name with
    | some v =>
      simp only [Option.isSome_some, if_true, Option.some.injEq, reduceCtorEq, and_false,
        false_and, exists_false, or_false]
      exact ⟨fun h => ⟨h, by simp [← h, hown]⟩, And.left⟩
    | none =>
      have hne (hb : (s.own? b name).isSome) : a ≠ b := fun h => by simp [h ▸ hown] at hb
      simp only [Option.isSome_none, Bool.false_eq_true, if_false, Option.bind_eq_some_iff, and_true]
      constructor
      · rintro ⟨p, hp, h⟩
        have h := (ih p hp).1 h
        exact ⟨.inr ⟨p, hp, h.1⟩, h.2⟩
      · rintro ⟨h, hb⟩
        obtain ⟨p, hp, h⟩ := h.resolve_left (hne hb)
        exact ⟨p, hp, (ih p hp).2 ⟨h, hb⟩⟩

end Layered

theorem get?_isSome_iff : (s.get? a name).isSome ↔ ∃ b, s.owner? a name = some b := by
  rw [get?_eq_owner?]
  cases h : s.owner? a name with
  | none => simp
  | some b => simpa using List.find?_some h

/-! ### What a definition changes -/

theorem own?_define_of_name_ne (hkey : key ≠ name) :
    (s.define b name v).own? a key = s.own? a key := by
  simp [own?_define, hkey]

theorem get?_define_of_ne (hkey : key ≠ name) :
    (s.define b name v).get? a key = s.get? a key := by
  simp [get?, own?_define_of_name_ne hkey]

theorem own?_define_self (hb : s.Has b) : (s.define b name v).own? b name = some v := by
  obtain ⟨scope, hscope⟩ := has_iff.1 hb
  simp [own?_define, hscope]

theorem own?_define_of_scope_ne (h : a ≠ b) :
    (s.define b name v).own? a key = s.own? a key := by
  simp [own?_define, h]

theorem own?_isSome_define (hb : (s.own? b name).isSome) :
    ((s.define b name v).own? a key).isSome = (s.own? a key).isSome := by
  rw [own?_define]
  split
  · next h => simp [h.1, h.2.1, hb]
  · rfl

namespace Layered

theorem get?_define_self (hs : s.Layered) (hb : s.Has b) :
    (s.define b name v).get? b name = some v := by
  rw [(hs.define b name v).get?_eq, own?_define_self hb, Option.some_or]

/-- From where a scope is seen for a name, what it defines the name to be is what the name means. -/
theorem get?_define_of_sees (hs : s.Layered) (hb : s.Has b) (h : s.Sees name a b) :
    (s.define b name v).get? a name = some v := by
  induction h using Relation.ReflTransGen.head_induction_on with
  | refl => exact hs.get?_define_self hb
  | @head a p hstep _ ih =>
    -- that the way up never returns to the scope is not needed: it would answer at once
    by_cases hab : a = b
    · rw [hab]
      exact hs.get?_define_self hb
    · rw [(hs.define b name v).get?_eq, own?_define_of_scope_ne hab, hstep.2, parent?_define, hstep.1]
      exact ih

theorem get?_define_of_not_sees (hs : s.Layered) (h : ¬ s.Sees name a b) :
    (s.define b name v).get? a name = s.get? a name := by
  induction a using hs.induction with
  | h a ih =>
    -- the scope sees itself, so it is not where the definition is made
    have hab : a ≠ b := fun hab => h (hab ▸ .refl)
    rw [(hs.define b name v).get?_eq, hs.get?_eq, own?_define_of_scope_ne hab, parent?_define]
    cases hown : s.own? a name with
    | some v => rfl
    | none =>
      cases hp : s.parent? a with
      | none => rfl
      | some p => exact ih p hp fun hpb => h (.head ⟨hp, hown⟩ hpb)

/-- What is observed of a definition. -/
theorem get?_define (hs : s.Layered) (hb : s.Has b) (name : String) (v : Value) (a : ScopeId)
    (key : String) :
    (key = name ∧ s.Sees name a b → (s.define b name v).get? a key = some v) ∧
      (¬ (key = name ∧ s.Sees name a b) → (s.define b name v).get? a key = s.get? a key) := by
  by_cases hkey : key = name
  · subst hkey
    exact ⟨fun h => hs.get?_define_of_sees hb h.2,
      fun h => hs.get?_define_of_not_sees fun hsees => h ⟨rfl, hsees⟩⟩
  · exact ⟨fun h => absurd h.1 hkey, fun _ => get?_define_of_ne hkey⟩

end Layered

/-! ### What an assignment changes -/

theorem assign_of_owner? (h : s.owner? a name = some b) :
    Eval.assign a name v s = .ok () (s.define b name v) := by
  simp [Eval.assign, set?, h]

theorem assign_of_no_owner (h : s.owner? a name = none) :
    Eval.assign a name v s = .error (.unbound name) s := by
  simp [Eval.assign, set?, h]

/-- Two scopes have the same nearest scope with a name if and only if the one of the first is seen by
the second. -/
theorem Layered.exists_nearest_iff_sees (hs : s.Layered) {c : ScopeId} (h : s.owner? a name = some b) :
    (∃ owner, s.Nearest name c owner ∧ s.Nearest name a owner) ↔ s.Sees name c b := by
  have hb := hs.owner?_eq_some_iff.1 h
  constructor
  · rintro ⟨owner, hc, ha⟩
    obtain rfl := Option.some.inj (h.symm.trans (hs.owner?_eq_some_iff.2 ha))
    exact hc.1
  · exact fun hc => ⟨b, ⟨hc, hb.2⟩, hb⟩

/-- A definition is observed under its name from where its scope is seen, and nowhere else. Assignment
succeeds where lookup does; it is observed under its name from where lookup reads the same scope, and
nowhere else, and binds no new names. Where it fails, nothing happens. -/
theorem get?_define_and_assign (hs : s.Layered) (hb : s.Has b) (name : String) (v : Value) :
    (∃ t, Eval.define b name v s = .ok () t ∧ ∀ a key,
      (key = name ∧ s.Sees name a b → t.get? a key = some v) ∧
      (¬ (key = name ∧ s.Sees name a b) → t.get? a key = s.get? a key)) ∧
    ((∃ t, Eval.assign b name v s = .ok () t) ↔ (s.get? b name).isSome) ∧
    (∀ t, Eval.assign b name v s = .ok () t → ∀ a key,
      (key = name ∧ (∃ owner, s.Nearest name a owner ∧ s.Nearest name b owner) →
        t.get? a key = some v) ∧
      (¬ (key = name ∧ ∃ owner, s.Nearest name a owner ∧ s.Nearest name b owner) →
        t.get? a key = s.get? a key) ∧
      (t.own? a key).isSome = (s.own? a key).isSome) ∧
    (¬ (s.get? b name).isSome → Eval.assign b name v s = .error (.unbound name) s) := by
  refine ⟨⟨_, rfl, hs.get?_define hb name v⟩, ?_⟩
  cases howner : s.owner? b name with
  | none =>
    have hget : ¬ (s.get? b name).isSome := by simp [get?_isSome_iff, howner]
    have hassign := assign_of_no_owner (v := v) howner
    simp [hassign, hget]
  | some owner =>
    have hget : (s.get? b name).isSome := get?_isSome_iff.2 ⟨owner, howner⟩
    have hassign := assign_of_owner? (v := v) howner
    have hown := (hs.owner?_eq_some_iff.1 howner).2
    have hhas : s.Has owner := has_of_own? (Option.isSome_iff_exists.1 hown).choose_spec
    refine ⟨iff_of_true ⟨_, hassign⟩ hget, fun t ht a key => ?_, fun h => absurd hget h⟩
    obtain rfl : s.define owner name v = t := by simpa [hassign] using ht
    rw [hs.exists_nearest_iff_sees howner]
    obtain ⟨hseen, hother⟩ := hs.get?_define hhas name v a key
    exact ⟨hseen, hother, own?_isSome_define hown⟩

/-- A root with two scopes inside. The first one binds `x` again and has a scope inside itself. -/
def shadowed : Store where
  scopes := #[⟨none, .ofList [("x", .number 1)]⟩, ⟨some ⟨0⟩, .ofList [("x", .number 2)]⟩,
    ⟨some ⟨1⟩, .empty⟩, ⟨some ⟨0⟩, .empty⟩]
  closures := #[]

theorem layered_shadowed : shadowed.Layered := by
  intro a p h
  match a with
  | ⟨0⟩ => cases h
  | ⟨1⟩ | ⟨2⟩ | ⟨3⟩ =>
    obtain rfl := Option.some.inj h
    decide
  | ⟨i + 4⟩ => cases h

/-- The innermost scope assigns the inner binding. The scope around it observes that, the one beside
that one does not; it observes a definition in the root. -/
theorem get?_define_and_assign_of_shadowed :
    shadowed.Layered ∧ shadowed.Has ⟨0⟩ ∧ shadowed.Has ⟨2⟩ ∧
      (∃ t, Eval.assign ⟨2⟩ "x" (.number 5) shadowed = .ok () t ∧
        t.get? ⟨1⟩ "x" = some (.number 5) ∧ t.get? ⟨3⟩ "x" = some (.number 1)) ∧
      ∃ t, Eval.define ⟨0⟩ "x" (.number 5) shadowed = .ok () t ∧
        t.get? ⟨1⟩ "x" = some (.number 2) ∧ t.get? ⟨3⟩ "x" = some (.number 5) := by
  have howner {a b : ScopeId} : shadowed.owner? a "x" = some b ↔ shadowed.Nearest "x" a b :=
    layered_shadowed.owner?_eq_some_iff
  have hone : shadowed.Nearest "x" ⟨1⟩ ⟨1⟩ := howner.1 (by decide +kernel)
  have htwo : shadowed.Nearest "x" ⟨2⟩ ⟨1⟩ := howner.1 (by decide +kernel)
  have hthree : shadowed.Nearest "x" ⟨3⟩ ⟨0⟩ := howner.1 (by decide +kernel)
  obtain ⟨-, hsucceeds, hassign, -⟩ := get?_define_and_assign layered_shadowed (b := ⟨2⟩)
    (by decide) "x" (.number 5)
  obtain ⟨⟨u, hu, hdefine⟩, -⟩ := get?_define_and_assign layered_shadowed (b := ⟨0⟩)
    (by decide) "x" (.number 5)
  obtain ⟨t, ht⟩ := hsucceeds.2 (by decide +kernel)
  refine ⟨layered_shadowed, by decide, by decide, ⟨t, ht, ?_, ?_⟩, u, hu, ?_, ?_⟩
  · exact (hassign t ht ⟨1⟩ "x").1 ⟨rfl, ⟨1⟩, hone, htwo⟩
  · refine ((hassign t ht ⟨3⟩ "x").2.1 ?_).trans (by decide +kernel)
    rintro ⟨-, owner, h3, h2⟩
    exact absurd ((howner.2 h3).trans (howner.2 h2).symm) (by decide +kernel)
  · refine ((hdefine ⟨1⟩ "x").2 ?_).trans (by decide +kernel)
    rintro ⟨-, hsees⟩
    exact absurd (howner.2 ⟨hsees, hthree.2⟩) (by decide +kernel)
  · exact (hdefine ⟨3⟩ "x").1 ⟨rfl, hthree.1⟩

end ScopedLisp.Store
