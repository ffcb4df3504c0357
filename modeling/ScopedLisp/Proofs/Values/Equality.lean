import Mathlib
import ScopedLisp.Proofs.Values.Alike
import ScopedLisp.Value.Equality

/-! # Equality as a relation

Equality is given by rules, one for each kind of value: numbers are compared as doubles, builtins by
name, closures by identity, and lists item by item. It is symmetric and transitive, but a value in
which not-a-number occurs differs from itself, however deep it occurs. Programs can hardly tell equal
values apart: all that shows is the sign of a zero. -/

namespace ScopedLisp

/-- A double in which the sign of a zero does not show. -/
def Number.plainZero (x : Float) : Float := if x = -0 then 0 else x

theorem Number.plainZero_eq_of_beq {x y : Float} (h : (x == y) = true) :
    plainZero x = plainZero y := by
  obtain ⟨-, -, rfl | ⟨rfl, rfl⟩ | ⟨rfl, rfl⟩⟩ := Float.beq_iff_ne_nan_and_eq.1 h
  · rfl
  · decide
  · decide

namespace Value

mutual

/-- A value in which no zero shows a sign. -/
def plainZeros : Value → Value
  | .number x => .number (Number.plainZero x)
  | .boolean b => .boolean b
  | .symbol name => .symbol name
  | .list items => .list (plainZerosItems items)
  | .procedure p => .procedure p

/-- Values in which no zero shows a sign. -/
def plainZerosItems : List Value → List Value
  | [] => []
  | item :: rest => plainZeros item :: plainZerosItems rest

end

@[simp] theorem plainZerosItems_eq_map (items : List Value) :
    plainZerosItems items = items.map plainZeros := by
  induction items with
  | nil => rfl
  | cons item rest ih => rw [plainZerosItems, ih, List.map_cons]

/-- The rules of equality. -/
inductive Same : Value → Value → Prop
  | number {x y} (doubles : (x == y) = true) : Same (.number x) (.number y)
  | boolean {b} : Same (.boolean b) (.boolean b)
  | symbol {name} : Same (.symbol name) (.symbol name)
  | list {xs ys} (items : List.Forall₂ Same xs ys) : Same (.list xs) (.list ys)
  | builtin {name operation operation'} :
      Same (.procedure (.builtin name operation)) (.procedure (.builtin name operation'))
  | closure {c} : Same (.procedure (.closure c)) (.procedure (.closure c))

theorem same_list_iff {xs ys : List Value} :
    (Value.list xs).Same (.list ys) ↔ List.Forall₂ Same xs ys :=
  ⟨fun | .list h => h, .list⟩

theorem equalItems_iff {xs ys : List Value} :
    equalItems xs ys = true ↔ List.Forall₂ (fun x y => x.equals y = true) xs ys := by
  induction xs generalizing ys with
  | nil => cases ys <;> simp [equalItems]
  | cons x xs ih => cases ys <;> simp [equalItems, ih]

theorem isSame_iff {p q : Procedure} :
    p.isSame q = true ↔ (Value.procedure p).Same (.procedure q) := by
  constructor
  · intro h
    cases p <;> cases q <;> simp only [Procedure.isSame, beq_iff_eq, Bool.false_eq_true] at h
    · exact h ▸ .builtin
    · exact h ▸ .closure
  · rintro (_ | _) <;> exact beq_self_eq_true _

variable {a b c : Value}

/-- The test for equality decides by the rules. -/
theorem equals_iff_same : a.equals b = true ↔ a.Same b := by
  induction a using Value.induction generalizing b with
  | list xs ih =>
    constructor
    · intro h
      cases b with
      | list ys => exact .list (forall₂_imp_of_mem (equalItems_iff.1 h) fun x hx y => (ih x hx).1)
      | _ => cases h
    · intro h
      cases h with
      | list hitems =>
        exact equalItems_iff.2 (forall₂_imp_of_mem hitems fun x hx y => (ih x hx).2)
  | procedure p =>
    cases b with
    | procedure q => exact isSame_iff
    | _ => exact iff_of_false nofun nofun
  | number x =>
    cases b with
    | number y => exact ⟨.number, fun | .number h => h⟩
    | _ => exact iff_of_false nofun nofun
  | boolean | symbol =>
    constructor
    · intro h
      cases b <;> simp only [equals, beq_iff_eq, Bool.false_eq_true] at h
      subst h
      constructor
    · rintro ⟨⟩
      exact beq_self_eq_true _

namespace Same

theorem symm (h : a.Same b) : b.Same a := by
  induction a using Value.induction generalizing b with
  | list xs ih =>
    cases h with
    | list hitems =>
      exact .list (forall₂_imp_of_mem hitems fun x hx _ hxy => ih x hx hxy).flip
  | number x =>
    cases h with
    | number h => exact .number (BEq.symm h)
  | boolean | symbol | procedure => cases h <;> constructor

theorem trans (h : a.Same b) (h' : b.Same c) : a.Same c := by
  induction a using Value.induction generalizing b c with
  | list xs ih =>
    cases h with
    | list hitems =>
      cases h' with
      | list hitems' =>
        exact .list (forall₂_imp_of_mem (forall₂_comp hitems hitems')
          fun x hx z ⟨y, hxy, hyz⟩ => ih x hx hxy hyz)
  | number x =>
    cases h with
    | number h =>
      cases h' with
      | number h' => exact .number (PartialEquivBEq.trans h h')
  | boolean | symbol | procedure => cases h <;> cases h' <;> constructor

/-- Not-a-number is all that differs from itself, and it makes differ whatever it occurs in. -/
theorem self_iff : a.Same a ↔ ∀ x, .number x ∈ a → x.isNaN = false := by
  induction a using Value.induction with
  | list items ih =>
    constructor
    · intro h x hx
      obtain ⟨item, hitem, hx⟩ := (mem_list_iff.1 hx).resolve_left nofun
      exact (ih item hitem).1 (List.forall₂_same.1 (same_list_iff.1 h) item hitem) x hx
    · intro h
      refine .list (List.forall₂_same.2 fun item hitem => (ih item hitem).2 fun x hx => ?_)
      exact h x (mem_list_of_mem hitem hx)
  | number x =>
    have hself : (x == x) = true ↔ x.isNaN = false := by simp
    constructor
    · rintro ⟨h⟩ y hy
      obtain rfl := number.inj (mem_number_iff.1 hy)
      exact hself.1 h
    · exact fun h => .number (hself.2 (h x (mem_self _)))
  | boolean | symbol => exact iff_of_true (by constructor) (by simp)
  | procedure p => exact iff_of_true (by cases p <;> constructor) (by simp)

theorem truthy_eq (h : a.Same b) : a.truthy = b.truthy := by
  cases h with
  | number h =>
    obtain ⟨-, -, rfl | ⟨rfl, rfl⟩ | ⟨rfl, rfl⟩⟩ := Float.beq_iff_ne_nan_and_eq.1 h
    · rfl
    · decide
    · decide
  | _ => rfl

theorem isStringLiteral_eq (h : a.Same b) : a.isStringLiteral = b.isStringLiteral := by
  cases h <;> rfl

/-- Equal values have the same text, up to the signs of zeros. -/
theorem text_plainZeros_eq (h : a.Same b) (s : Store) :
    s.text a.plainZeros = s.text b.plainZeros := by
  induction a using Value.induction generalizing b with
  | list xs ih =>
    cases h with
    | @list _ ys hitems =>
      have htexts := forall₂_imp_of_mem hitems
        (S := fun x y => s.text x.plainZeros = s.text y.plainZeros) fun x hx _ h => ih x hx h
      have hitems : s.texts (xs.map plainZeros) = s.texts (ys.map plainZeros) :=
        Store.texts_eq (by simpa using htexts)
      simp only [plainZeros, plainZerosItems_eq_map, Store.text, hitems]
  | number x =>
    cases h with
    | number h => rw [plainZeros, plainZeros, Number.plainZero_eq_of_beq h]
  | boolean | symbol | procedure => cases h <;> rfl

end Same

/-- Equality goes by the rules, is symmetric and transitive, and holds of a value and itself unless
not-a-number occurs in it. Equal values count as true alike, are string literals alike, and have the
same text once negative zeros are printed as zeros. -/
theorem equals_partialEquivalence (a b c : Value) :
    (a.equals b = true ↔ a.Same b) ∧
    (a.equals b = true → b.equals a = true) ∧
    (a.equals b = true → b.equals c = true → a.equals c = true) ∧
    (a.equals a = true ↔ ∀ x, .number x ∈ a → x.isNaN = false) ∧
    (a.equals b = true → a.truthy = b.truthy ∧ a.isStringLiteral = b.isStringLiteral ∧
      ∀ s : Store, s.text a.plainZeros = s.text b.plainZeros) := by
  simp only [equals_iff_same]
  exact ⟨trivial, .symm, .trans, Same.self_iff,
    fun h => ⟨h.truthy_eq, h.isStringLiteral_eq, h.text_plainZeros_eq⟩⟩

/-- Two lists that differ in the sign of a zero and in what a builtin does, and a third one that is
the first. -/
theorem equals_partialEquivalence_of_signedZeros :
    ∃ a b c : Value, a.equals b = true ∧ b.equals c = true ∧ a ≠ b ∧
      Store.empty.text a = "(-0 (<builtin +> <lambda ()>))" ∧
      Store.empty.text b = "(0 (<builtin +> <lambda ()>))" ∧
      b.equals a = true ∧ a.equals c = true ∧ (∀ x, .number x ∈ a → x.isNaN = false) ∧
      a.truthy = b.truthy ∧ a.isStringLiteral = b.isStringLiteral ∧
      ∀ s : Store, s.text a.plainZeros = s.text b.plainZeros := by
  let a : Value := .list [.number (-0),
    .list [.procedure (.builtin "+" (.fold .add)), .procedure (.closure ⟨0⟩)]]
  let b : Value := .list [.number 0,
    .list [.procedure (.builtin "+" .gather), .procedure (.closure ⟨0⟩)]]
  have hab : a.equals b = true := by decide
  have hba : b.equals a = true := by decide
  obtain ⟨-, hsymm, htrans, hself, hshown⟩ := equals_partialEquivalence a b a
  have haa := htrans hab hba
  exact ⟨a, b, a, hab, hba, by decide, by decide +kernel, by decide +kernel, hsymm hab, haa,
    hself.1 haa, hshown hab⟩

example : (Value.list [.list [.number (0 / 0)]]).equals (.list [.list [.number (0 / 0)]]) = false := by
  decide

end Value
end ScopedLisp
