import Mathlib.Data.List.Forall2
import ScopedLisp.Eval.Evaluator

/-! # Parts of values, and values alike up to closures

What occurs in a value at any depth of nested lists, and what it is for two values to differ in
nothing but which closures stand in them. Alike values have the same shape, so the evaluator takes
the same way on both, and the same text, as long as their closures have the same parameters. -/

namespace ScopedLisp

/-- Induction on values: a list has the property if all its items do. -/
@[elab_as_elim]
theorem Value.induction {P : Value → Prop} (number : ∀ x, P (.number x))
    (boolean : ∀ b, P (.boolean b)) (symbol : ∀ name, P (.symbol name))
    (list : ∀ items, (∀ item ∈ items, P item) → P (.list items))
    (procedure : ∀ p, P (.procedure p)) (value : Value) : P value :=
  value.rec (motive_2 := fun items => ∀ item ∈ items, P item) number boolean symbol list procedure
    (by simp) fun _ _ hfirst hrest => List.forall_mem_cons.2 ⟨hfirst, hrest⟩

theorem Store.texts_eq {s t : Store} {xs ys : List Value}
    (h : List.Forall₂ (fun x y => s.text x = t.text y) xs ys) : s.texts xs = t.texts ys := by
  induction h with
  | nil => rfl
  | cons first _ ih => rw [texts, texts, first, ih]

namespace Value

/-- `Part part value`: a value occurs in another, at any depth of nested lists. -/
inductive Part (part : Value) : Value → Prop
  | refl : Part part part
  | item {items item} (mem : item ∈ items) (within : Part part item) : Part part (.list items)

instance : Membership Value Value := ⟨fun value part => Part part value⟩

theorem mem_self (value : Value) : value ∈ value := .refl

theorem mem_list_of_mem {part item : Value} {items : List Value} (hitem : item ∈ items)
    (h : part ∈ item) : part ∈ Value.list items := .item hitem h

@[simp] theorem mem_list_iff {part : Value} {items : List Value} :
    part ∈ Value.list items ↔ part = .list items ∨ ∃ item ∈ items, part ∈ item := by
  constructor
  · intro h
    cases h with
    | refl => exact .inl rfl
    | item hitem h => exact .inr ⟨_, hitem, h⟩
  · rintro (rfl | ⟨item, hitem, h⟩)
    · exact mem_self _
    · exact mem_list_of_mem hitem h

/-- The closures in a list are those in its items. -/
theorem forall_closure_mem_list_iff {P : ClosureId → Prop} {items : List Value} :
    (∀ c, procedure (.closure c) ∈ list items → P c) ↔
      ∀ item ∈ items, ∀ c, procedure (.closure c) ∈ item → P c :=
  ⟨fun h _ hitem c hc => h c (mem_list_of_mem hitem hc),
    fun h c hc => match hc with | .item hitem hc => h _ hitem c hc⟩

@[simp] theorem mem_number_iff {part : Value} {x : Float} :
    part ∈ Value.number x ↔ part = .number x :=
  ⟨fun h => by cases h; rfl, fun h => h ▸ mem_self _⟩

@[simp] theorem mem_boolean_iff {part : Value} {b : Bool} :
    part ∈ Value.boolean b ↔ part = .boolean b :=
  ⟨fun h => by cases h; rfl, fun h => h ▸ mem_self _⟩

@[simp] theorem mem_symbol_iff {part : Value} {name : String} :
    part ∈ Value.symbol name ↔ part = .symbol name :=
  ⟨fun h => by cases h; rfl, fun h => h ▸ mem_self _⟩

@[simp] theorem mem_procedure_iff {part : Value} {p : Procedure} :
    part ∈ Value.procedure p ↔ part = .procedure p :=
  ⟨fun h => by cases h; rfl, fun h => h ▸ mem_self _⟩

variable {same same' : ClosureId → ClosureId → Prop}

/-- Values with the same shape, the same atoms and the same builtins, and with closures that are the
same in some sense. -/
inductive Alike (same : ClosureId → ClosureId → Prop) : Value → Value → Prop
  | number {x} : Alike same (.number x) (.number x)
  | boolean {b} : Alike same (.boolean b) (.boolean b)
  | symbol {name} : Alike same (.symbol name) (.symbol name)
  | list {xs ys} (items : List.Forall₂ (Alike same) xs ys) : Alike same (.list xs) (.list ys)
  | builtin {name operation} :
      Alike same (.procedure (.builtin name operation)) (.procedure (.builtin name operation))
  | closure {c d} (closures : same c d) :
      Alike same (.procedure (.closure c)) (.procedure (.closure d))

theorem alike_list_iff {xs ys : List Value} :
    (Value.list xs).Alike same (.list ys) ↔ List.Forall₂ (Alike same) xs ys :=
  ⟨fun | .list h => h, .list⟩

theorem alike_closure_iff {c d : ClosureId} :
    (Value.procedure (.closure c)).Alike same (.procedure (.closure d)) ↔ same c d :=
  ⟨fun | .closure h => h, .closure⟩

/-- Sequences related item by item are related in another way too, if each item of the first is so to
whatever it is related to. -/
theorem forall₂_imp_of_mem {α β : Type} {R S : α → β → Prop} {xs : List α} {ys : List β}
    (h : List.Forall₂ R xs ys) (hS : ∀ x ∈ xs, ∀ y, R x y → S x y) : List.Forall₂ S xs ys :=
  ((List.forall₂_and_left xs ys).2 ⟨hS, h⟩).imp fun _ y h => h.1 y h.2

/-- Sequences that are related by two relations one after the other. -/
theorem forall₂_comp {α β γ : Type} {R : α → β → Prop} {S : β → γ → Prop} {xs : List α}
    {ys : List β} {zs : List γ} (h : List.Forall₂ R xs ys) (h' : List.Forall₂ S ys zs) :
    List.Forall₂ (fun x z => ∃ y, R x y ∧ S y z) xs zs := by
  induction h generalizing zs with
  | nil =>
    cases h'
    exact .nil
  | cons first _ ih =>
    cases h' with
    | cons first' rest' => exact .cons ⟨_, first, first'⟩ (ih rest')

namespace Alike

theorem mono {v w : Value} (h : v.Alike same w) (hsame : ∀ c d, same c d → same' c d) :
    v.Alike same' w := by
  induction v using Value.induction generalizing w with
  | list items ih =>
    cases h with
    | list hitems => exact .list (forall₂_imp_of_mem hitems fun item hitem _ h => ih item hitem h)
  | procedure p =>
    cases h with
    | builtin => exact .builtin
    | closure h => exact .closure (hsame _ _ h)
  | number | boolean | symbol =>
    cases h
    constructor

/-- A value is alike to itself if each closure in it counts as the same as itself. -/
theorem refl {v : Value} (h : ∀ c, Value.procedure (.closure c) ∈ v → same c c) :
    v.Alike same v := by
  induction v using Value.induction with
  | list items ih =>
    exact .list (List.forall₂_same.2 fun item hitem =>
      ih item hitem fun c hc => h c (mem_list_of_mem hitem hc))
  | procedure p =>
    cases p with
    | builtin => exact .builtin
    | closure c => exact .closure (h c (mem_self _))
  | number | boolean | symbol => constructor

theorem symm {v w : Value} (h : v.Alike same w) : w.Alike (fun d c => same c d) v := by
  induction v using Value.induction generalizing w with
  | list items ih =>
    cases h with
    | list hitems =>
      exact .list (forall₂_imp_of_mem (S := fun x y => y.Alike (fun d c => same c d) x) hitems
        fun item hitem _ h => ih item hitem h).flip
  | procedure p =>
    cases h with
    | builtin => exact .builtin
    | closure h => exact .closure h
  | number | boolean | symbol =>
    cases h
    constructor

theorem trans {u v w : Value} (h : u.Alike same v) (h' : v.Alike same' w) :
    u.Alike (fun c e => ∃ d, same c d ∧ same' d e) w := by
  induction u using Value.induction generalizing v w with
  | list items ih =>
    cases h with
    | list hitems =>
      cases h' with
      | list hitems' =>
        exact .list (forall₂_imp_of_mem (forall₂_comp hitems hitems')
          fun x hx z ⟨y, hxy, hyz⟩ => ih x hx hxy hyz)
  | procedure p =>
    cases h with
    | builtin =>
      cases h'
      exact .builtin
    | closure h =>
      cases h' with
      | closure h' => exact .closure ⟨_, h, h'⟩
  | number | boolean | symbol =>
    cases h
    cases h'
    constructor

/-- Values are the same if the closures in the one count as the same as themselves only. -/
theorem eq_of {v w : Value} (h : v.Alike same w)
    (hsame : ∀ c d, Value.procedure (.closure c) ∈ v → same c d → c = d) : v = w := by
  induction v using Value.induction generalizing w with
  | list items ih =>
    cases h with
    | list hitems =>
      have heq := forall₂_imp_of_mem (S := (· = ·)) hitems fun item hitem _ h =>
        ih item hitem h fun c d hc => hsame c d (mem_list_of_mem hitem hc)
      obtain rfl : items = _ := List.forall₂_eq_eq_eq ▸ heq
      rfl
  | procedure p =>
    cases h with
    | builtin => rfl
    | closure h => rw [hsame _ _ (mem_self _) h]
  | number | boolean | symbol =>
    cases h
    rfl

theorem exists_pair_left {v x y : Value} (h : v.Alike same (.list [x, y])) :
    ∃ x y, v = .list [x, y] := by
  match h with
  | .list (.cons _ (.cons _ .nil)) => exact ⟨_, _, rfl⟩

theorem exists_pair_right {w x y : Value} (h : (Value.list [x, y]).Alike same w) :
    ∃ x y, w = .list [x, y] := by
  match h with
  | .list (.cons _ (.cons _ .nil)) => exact ⟨_, _, rfl⟩

theorem exists_list_left {v : Value} {items : List Value} (h : v.Alike same (.list items)) :
    ∃ items, v = .list items := by
  cases h
  exact ⟨_, rfl⟩

theorem exists_list_right {w : Value} {items : List Value} (h : (Value.list items).Alike same w) :
    ∃ items, w = .list items := by
  cases h
  exact ⟨_, rfl⟩

theorem truthy_eq {v w : Value} (h : v.Alike same w) : v.truthy = w.truthy := by
  cases h <;> rfl

theorem bindableName?_eq {v w : Value} (h : v.Alike same w) :
    v.bindableName? = w.bindableName? := by
  cases h <;> rfl

theorem form?_eq {v w : Value} (h : v.Alike same w) : v.form? = w.form? := by
  cases h <;> rfl

/-- Values alike in two stores have the same text, if closures that count as the same have the same
parameters there. -/
theorem text_eq {v w : Value} (h : v.Alike same w) {s t : Store}
    (params : ∀ c d, same c d →
      (s.closure? c).map Closure.params = (t.closure? d).map Closure.params) :
    s.text v = t.text w := by
  induction v using Value.induction generalizing w with
  | list xs ih =>
    cases h with
    | @list _ ys hitems =>
      have htexts := forall₂_imp_of_mem (S := fun x y => s.text x = t.text y) hitems
        fun x hx _ h => ih x hx h
      rw [Store.text, Store.text, Store.texts_eq htexts]
  | procedure p =>
    cases h with
    | builtin => rfl
    | closure h => simp only [Store.text, Store.procedureText, params _ _ h]
  | number | boolean | symbol =>
    cases h
    simp only [Store.text]

end Alike
end Value
end ScopedLisp
