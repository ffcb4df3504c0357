import Mathlib.Data.List.Basic
import ScopedLisp.Proofs.Evaluation.Rules
import ScopedLisp.Proofs.Scopes.Growth
import ScopedLisp.Session

/-! # Arguments of builtins

A builtin counts its arguments, whatever they are, and then takes them for numbers from left to right.
So there are three ways for it to end, and the arguments alone decide which: a wrong count is the
first thing that it fails with, the leftmost argument that is no number the second, and otherwise it
answers. In each case the store stays as it is, and the one name that a builtin has is the name that
its errors show. As arithmetic goes from left to right, it may stop after any argument and go on with
what it has: nothing is asked of the operations on doubles for that, and a bad argument is reported
the same, on whichever side of the stop it stands. -/

namespace ScopedLisp

/-- Whether an arity allows a number of arguments. -/
def Arity.Accepts : Arity → Nat → Prop
  | exactly n, count => count = n
  | atLeast n, count => n ≤ count

namespace Value

/-- Whether a value is a number. -/
def IsNumber (v : Value) : Prop := ∃ x, v = .number x

/-- Whether a value is the leftmost one of a sequence that is no number. -/
def IsLeftmostOther (v : Value) (args : List Value) : Prop :=
  ∃ (xs : List Float) (rest : List Value), args = xs.map number ++ v :: rest ∧ ¬ v.IsNumber

variable {v : Value} {args : List Value}

theorem numbers_or_leftmost (args : List Value) :
    (∃ xs : List Float, args = xs.map number) ∨ ∃ v : Value, v.IsLeftmostOther args := by
  induction args with
  | nil => exact .inl ⟨[], rfl⟩
  | cons arg args ih =>
    by_cases harg : arg.IsNumber
    · obtain ⟨x, rfl⟩ := harg
      rcases ih with ⟨xs, rfl⟩ | ⟨v, xs, rest, rfl, hv⟩
      · exact .inl ⟨x :: xs, rfl⟩
      · exact .inr ⟨v, x :: xs, rest, rfl, hv⟩
    · exact .inr ⟨arg, [], args, rfl, harg⟩

theorem IsLeftmostOther.append (h : v.IsLeftmostOther args) (more : List Value) :
    v.IsLeftmostOther (args ++ more) := by
  obtain ⟨xs, rest, rfl, hv⟩ := h
  exact ⟨xs, rest ++ more, by simp, hv⟩

theorem IsLeftmostOther.prepend (h : v.IsLeftmostOther args) (xs : List Float) :
    v.IsLeftmostOther (xs.map number ++ args) := by
  obtain ⟨ys, rest, rfl, hv⟩ := h
  exact ⟨xs ++ ys, rest, by simp, hv⟩

theorem IsLeftmostOther.not_all (h : v.IsLeftmostOther args) : ¬ ∀ arg ∈ args, arg.IsNumber := by
  obtain ⟨xs, rest, rfl, hv⟩ := h
  exact fun hall => hv (hall v (by simp))

end Value

namespace Operation
variable {name : String} {args : List Value} {v : Value} {s t : Store}

/-! ### The numbers in arguments -/

theorem numbers_append (name : String) (xs : List Float) (rest : List Value) :
    numbers name (xs.map .number ++ rest) = (xs ++ ·) <$> numbers name rest := by
  induction xs with
  | nil => exact (id_map _).symm
  | cons x xs ih =>
    rw [List.map_cons, List.cons_append, numbers, ih]
    simp only [map_eq_pure_bind, bind_assoc, pure_bind, List.cons_append]

theorem numbers_map (name : String) (xs : List Float) :
    numbers name (xs.map .number) = pure xs := by
  simpa [numbers] using numbers_append name xs []

theorem numbers_of_leftmost (h : v.IsLeftmostOther args) (name : String) (s : Store) :
    numbers name args s = .error (.notNumber name (s.text v)) s := by
  obtain ⟨xs, rest, rfl, hv⟩ := h
  have hfirst : numbers name (v :: rest) s = .error (.notNumber name (s.text v)) s := by
    cases v with
    | number x => exact absurd ⟨x, rfl⟩ hv
    | _ => rfl
  rw [numbers_append, Eval.map_apply, hfirst]

/-- As many numbers are found as there are arguments, so they can be taken by position. -/
theorem length_numbers {xs : List Float} (h : numbers name args s = .ok xs t) :
    xs.length = args.length := by
  rcases Value.numbers_or_leftmost args with ⟨ys, rfl⟩ | ⟨v, hv⟩
  · rw [numbers_map, Eval.pure_apply] at h
    cases h
    rw [List.length_map]
  · rw [numbers_of_leftmost hv] at h
    cases h

/-! ### How operations end -/

/-- How a builtin of some name and arity that answers some kind of values ends on arguments. -/
structure Screens (name : String) (arity : Arity) (kind : Value → Prop) (args : List Value)
    (s : Store) (o : Outcome Value) : Prop where
  ended : ∃ r, o = .ended r s
  miscounted : o = .error (.arity name arity args.length) s ↔ ¬ arity.Accepts args.length
  mismatched : ∀ text, o = .error (.notNumber name text) s ↔
    arity.Accepts args.length ∧ ∃ v : Value, v.IsLeftmostOther args ∧ text = s.text v
  answered : (∃ v, kind v ∧ o = .ok v s) ↔
    arity.Accepts args.length ∧ ∀ arg ∈ args, arg.IsNumber
  -- what was counted are the arguments, and what is taken by position are the numbers
  in_range : ∀ xs t, numbers name args s = .ok xs t → xs.length = args.length

/-- It is enough to know what comes of a wrong count, of an argument that is no number and of
numbers. -/
theorem Screens.of_cases {arity : Arity} {kind : Value → Prop} {o : Outcome Value}
    (hcount : ¬ arity.Accepts args.length → o = .error (.arity name arity args.length) s)
    (hother : arity.Accepts args.length → ∀ v : Value, v.IsLeftmostOther args →
      o = .error (.notNumber name (s.text v)) s)
    (hnumbers : arity.Accepts args.length → ∀ xs : List Float, args = xs.map .number →
      ∃ v, kind v ∧ o = .ok v s) :
    Screens name arity kind args s o := by
  by_cases count : arity.Accepts args.length
  · rcases Value.numbers_or_leftmost args with ⟨xs, hxs⟩ | ⟨v, hv⟩
    · have hall : ∀ arg ∈ args, arg.IsNumber := by
        rw [hxs]
        exact List.forall_mem_map.2 fun x _ => ⟨x, rfl⟩
      obtain ⟨v, hkind, rfl⟩ := hnumbers count xs hxs
      exact {
        ended := ⟨.ok v, rfl⟩
        miscounted := iff_of_false nofun (not_not_intro count)
        mismatched := fun _ => iff_of_false nofun fun ⟨_, _, hv, _⟩ => hv.not_all hall
        answered := iff_of_true ⟨v, hkind, rfl⟩ ⟨count, hall⟩
        in_range := fun _ _ => length_numbers }
    · obtain rfl := hother count v hv
      exact {
        ended := ⟨.error _, rfl⟩
        miscounted := iff_of_false nofun (not_not_intro count)
        mismatched := fun text => by
          constructor
          · intro h
            simp only [Outcome.error.injEq, EvalError.notNumber.injEq, true_and, and_true] at h
            exact ⟨count, v, hv, h.symm⟩
          · rintro ⟨-, w, hw, rfl⟩
            exact hother count w hw
        answered := iff_of_false nofun fun h => hv.not_all h.2
        in_range := fun _ _ => length_numbers }
  · obtain rfl := hcount count
    exact {
      ended := ⟨.error _, rfl⟩
      miscounted := iff_of_true rfl count
      mismatched := fun _ => iff_of_false nofun fun h => count h.1
      answered := iff_of_false nofun fun h => count h.1
      in_range := fun _ _ => length_numbers }

theorem apply_fold_of_leftmost (h : v.IsLeftmostOther args) (operator : Arithmetic) (s : Store) :
    apply name (.fold operator) args s = .error (.notNumber name (s.text v)) s := by
  rw [apply, Eval.bind_apply, numbers_of_leftmost h]

theorem apply_fold_numbers (name : String) (operator : Arithmetic) (x : Float) (xs : List Float)
    (s : Store) :
    apply name (.fold operator) ((x :: xs).map .number) s =
      .ok (.number (xs.foldl operator.apply x)) s := by
  rw [apply, numbers_map, pure_bind]
  rfl

theorem screens_fold (name : String) (operator : Arithmetic) (args : List Value) (s : Store) :
    Screens name (.atLeast 1) Value.IsNumber args s (apply name (.fold operator) args s) := by
  refine .of_cases (fun count => ?_) (fun _ v hv => apply_fold_of_leftmost hv operator s) ?_
  · obtain rfl : args = [] := by simpa [Arity.Accepts] using count
    rfl
  · rintro count xs rfl
    cases xs with
    | nil => simp [Arity.Accepts] at count
    | cons x xs => exact ⟨_, ⟨_, rfl⟩, apply_fold_numbers name operator x xs s⟩

theorem apply_compare_of_length_ne (count : args.length ≠ 2) (name : String)
    (relation : Comparison) (s : Store) :
    apply name (.compare relation) args s = .error (.arity name (.exactly 2) args.length) s :=
  congrFun (if_neg count) s

theorem apply_compare_of_leftmost (count : args.length = 2) (h : v.IsLeftmostOther args)
    (name : String) (relation : Comparison) (s : Store) :
    apply name (.compare relation) args s = .error (.notNumber name (s.text v)) s := by
  refine (congrFun (if_pos count) s).trans ?_
  rw [Eval.bind_apply, numbers_of_leftmost h]

theorem screens_compare (name : String) (relation : Comparison) (args : List Value) (s : Store) :
    Screens name (.exactly 2) (fun v => ∃ b, v = .boolean b) args s
      (apply name (.compare relation) args s) := by
  refine .of_cases (fun count => apply_compare_of_length_ne count name relation s)
    (fun count v hv => apply_compare_of_leftmost count hv name relation s) ?_
  rintro count xs rfl
  obtain ⟨x, y, rfl⟩ := List.length_eq_two.1 (List.length_map Value.number ▸ count)
  exact ⟨.boolean (relation.holds x y), ⟨_, rfl⟩, rfl⟩

/-! ### Stopping on the way -/

/-- A fold of some arguments and of more is a fold of what comes of the first ones and of the rest. -/
theorem apply_fold_append (name : String) (operator : Arithmetic) {xs : List Value} (hxs : xs ≠ [])
    (ys : List Value) :
    apply name (.fold operator) (xs ++ ys) =
      apply name (.fold operator) xs >>= fun r => apply name (.fold operator) (r :: ys) := by
  funext s
  rw [Eval.bind_apply]
  rcases Value.numbers_or_leftmost xs with ⟨xs, rfl⟩ | ⟨v, hv⟩
  · obtain ⟨x, xs, rfl⟩ := List.exists_cons_of_ne_nil (fun h => hxs (h ▸ rfl) : xs ≠ [])
    rw [apply_fold_numbers]
    -- the rest is screened on both sides, once after the first numbers and once after their fold
    rcases Value.numbers_or_leftmost ys with ⟨ys, rfl⟩ | ⟨v, hv⟩
    · rw [← List.map_append, List.cons_append, apply_fold_numbers, List.foldl_append]
      exact (apply_fold_numbers name operator _ ys s).symm
    · rw [apply_fold_of_leftmost (hv.prepend (x :: xs))]
      exact (apply_fold_of_leftmost (hv.prepend [_]) operator s).symm
  · rw [apply_fold_of_leftmost (hv.append ys), apply_fold_of_leftmost hv]

/-! ### Fresh roots -/

/-- The builtins are the arithmetic ones and the comparisons. -/
theorem mem_builtins_cases : ∀ entry ∈ builtins,
    (entry.1 ∈ ["+", "-", "*", "/"] ∧ ∃ operator, entry.2 = .fold operator) ∨
      (entry.1 ∈ [">", "<", "=", "<=", ">="] ∧ ∃ relation, entry.2 = .compare relation) := by
  simp [builtins]

end Operation

theorem Store.get?_addRoot (s : Store) (name : String) :
    s.addRoot.2.get? s.addRoot.1 name = Operation.rootBindings.get? name := by
  simp [addRoot, get?, chain_addScope_none, own?, scope?_addScope]

/-- Whatever is bound in a fresh root is a builtin, which is printed with the name that it is bound
under. How it ends is decided by its arguments alone: a wrong count fails, a right count with
something that is no number fails, and only numbers in the right count are answered. Its errors show
its name, and no store is changed. -/
theorem builtins_screen (s : Store) {name : String} {v : Value}
    (bound : s.addRoot.2.get? s.addRoot.1 name = some v) :
    ∃ p, v = .procedure p ∧ (∀ t : Store, t.text v = "<builtin " ++ name ++ ">") ∧
      ((name ∈ ["+", "-", "*", "/"] ∧ ∀ ev args t,
        Operation.Screens name (.atLeast 1) Value.IsNumber args t (p.apply ev args t)) ∨
      (name ∈ [">", "<", "=", "<=", ">="] ∧ ∀ ev args t,
        Operation.Screens name (.exactly 2) (fun v => ∃ b, v = .boolean b) args t
          (p.apply ev args t))) := by
  rw [Store.get?_addRoot] at bound
  obtain ⟨operation, hmem, rfl⟩ := Operation.get?_rootBindings_iff.1 bound
  refine ⟨_, rfl, fun t => by simp [Store.text, Store.procedureText], ?_⟩
  rcases Operation.mem_builtins_cases _ hmem with ⟨hname, operator, rfl⟩ | ⟨hname, relation, rfl⟩
  · exact .inl ⟨hname, fun _ => Operation.screens_fold name operator⟩
  · exact .inr ⟨hname, fun _ => Operation.screens_compare name relation⟩

/-- A comparison counts arguments that are no numbers, and with two arguments it takes them for
numbers. -/
theorem builtins_screen_of_less :
    ∃ p, Store.empty.addRoot.2.get? Store.empty.addRoot.1 "<" = some (.procedure p) ∧
      ∀ (ev : Evaluator) (t : Store),
        p.apply ev [.symbol "a", .number 1, .symbol "b"] t =
            .error (.arity "<" (.exactly 2) 3) t ∧
          p.apply ev [.number 1, .symbol "b"] t = .error (.notNumber "<" "b") t := by
  have bound : Store.empty.addRoot.2.get? Store.empty.addRoot.1 "<" =
      some (.procedure (.builtin "<" (.compare .less))) := by
    rw [Store.get?_addRoot]
    exact Operation.get?_rootBindings_iff.2 ⟨_, by simp [Operation.builtins], rfl⟩
  obtain ⟨p, hp, -, hscreens⟩ := builtins_screen .empty bound
  have hscreens := (hscreens.resolve_left (by simp)).2
  have hleftmost : (Value.symbol "b").IsLeftmostOther [.number 1, .symbol "b"] :=
    ⟨[1], [], rfl, nofun⟩
  refine ⟨p, hp ▸ bound, fun ev t => ⟨?_, ?_⟩⟩
  · exact (hscreens ev _ t).miscounted.2 (by simp [Arity.Accepts])
  · exact ((hscreens ev _ t).mismatched "b").2 ⟨rfl, _, hleftmost, rfl⟩

/-- Arithmetic can stop anywhere: applying one of its builtins to a sequence of arguments always ends,
and with what comes of applying it to the first ones, and then to that and the remaining ones. -/
theorem arithmetic_append (s : Store) {name : String} (known : name ∈ ["+", "-", "*", "/"]) :
    ∃ p, s.addRoot.2.get? s.addRoot.1 name = some (.procedure p) ∧
      (∀ ev args t, ∃ r, p.apply ev args t = .ended r t) ∧
      ∀ ev xs ys, xs ≠ [] →
        p.apply ev (xs ++ ys) = p.apply ev xs >>= fun r => p.apply ev (r :: ys) := by
  obtain ⟨operator, hmem⟩ : ∃ operator, (name, Operation.fold operator) ∈ Operation.builtins := by
    simp only [List.mem_cons, List.not_mem_nil, or_false] at known
    rcases known with rfl | rfl | rfl | rfl <;> simp [Operation.builtins]
  refine ⟨.builtin name (.fold operator), ?_, fun _ args t => ?_, fun _ _ ys hxs => ?_⟩
  · rw [Store.get?_addRoot]
    exact Operation.get?_rootBindings_iff.2 ⟨_, hmem, rfl⟩
  · exact (Operation.screens_fold name operator args t).ended
  · exact Operation.apply_fold_append name operator hxs ys

/-- A difference that stops before an argument that is no number. -/
theorem arithmetic_append_of_difference :
    ∃ p, Store.empty.addRoot.2.get? Store.empty.addRoot.1 "-" = some (.procedure p) ∧
      ∀ (ev : Evaluator) (t : Store),
        p.apply ev [.number 10, .number 3] t = .ok (.number 7) t ∧
          p.apply ev [.number 7, .symbol "a", .boolean true] t = .error (.notNumber "-" "a") t ∧
          p.apply ev [.number 10, .number 3, .symbol "a", .boolean true] t =
            .error (.notNumber "-" "a") t := by
  obtain ⟨p, bound, -, happend⟩ := arithmetic_append .empty (show "-" ∈ ["+", "-", "*", "/"] by simp)
  obtain rfl : p = .builtin "-" (.fold .subtract) := by
    rw [Store.get?_addRoot] at bound
    obtain ⟨operation, hmem, hp⟩ := Operation.get?_rootBindings_iff.1 bound
    simp_all [Operation.builtins]
  refine ⟨_, bound, fun ev t => ?_⟩
  have first : Procedure.apply ev (.builtin "-" (.fold .subtract)) [.number 10, .number 3] t =
      .ok (.number 7) t := by
    refine (Operation.apply_fold_numbers "-" .subtract 10 [3] t).trans ?_
    rw [show [(3 : Float)].foldl Arithmetic.subtract.apply 10 = 7 by decide +kernel]
  refine ⟨first, rfl, ?_⟩
  refine (congrFun (happend ev [.number 10, .number 3] [.symbol "a", .boolean true] nofun) t).trans ?_
  rw [Eval.bind_apply, first]
  rfl

end ScopedLisp
