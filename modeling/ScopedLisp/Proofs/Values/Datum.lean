import ScopedLisp.Proofs.Printing.RoundTrip
import ScopedLisp.Proofs.Values.Equality

/-! # Data

What is read from a text is a datum, and none of its numbers is not-a-number: each is the double
nearest to a decimal. Such data contain no booleans and no procedures, they are equal to themselves,
and they read back from their printed text unless an infinite number occurs in them. -/

namespace ScopedLisp

theorem Decimal.isNaN_toFloat (d : Decimal) : d.toFloat.isNaN = false := by
  refine Binary64.isNaN_ofMagnitude d.negative ?_
  rw [magnitude]
  split_ifs
  · exact Nat.zero_le _
  · exact le_rfl
  · exact Nat.zero_le _
  · exact Nat.min_le_right _ _

mutual

/-- Every number in what is read is the one nearest to some decimal. -/
theorem Tree.exists_decimal_of_mem_value {tree : Tree} {x : Float} (h : .number x ∈ tree.value) :
    ∃ d : Decimal, d.toFloat = x := by
  match tree with
  | .leaf text =>
    rw [Tree.value, Value.ofAtom] at h
    split at h
    · next d _ => exact ⟨d, (Value.number.inj (Value.mem_number_iff.1 h)).symm⟩
    · simp at h
  | .node children =>
    obtain ⟨item, hitem, hx⟩ := (Value.mem_list_iff.1 h).resolve_left nofun
    exact Tree.exists_decimal_of_mem_values hitem hx

theorem Tree.exists_decimal_of_mem_values {trees : List Tree} {item : Value}
    (hitem : item ∈ Tree.values trees) {x : Float} (h : .number x ∈ item) :
    ∃ d : Decimal, d.toFloat = x := by
  match trees with
  | [] => cases hitem
  | tree :: trees =>
    rw [Tree.values] at hitem
    rcases List.mem_cons.1 hitem with rfl | hitem
    · exact Tree.exists_decimal_of_mem_value h
    · exact Tree.exists_decimal_of_mem_values hitem h

end

namespace Value
variable {accepted accepted' : Float → Prop} {v : Value}

/-- What is accepted matters for the numbers that occur only. -/
theorem IsDatum.of_numbers (h : v.IsDatum accepted) (hnumbers : ∀ x, .number x ∈ v → accepted' x) :
    v.IsDatum accepted' := by
  induction h with
  | number => exact .number (hnumbers _ (mem_self _))
  | symbol word not_literal => exact .symbol word not_literal
  | list _ ih =>
    exact .list fun item hitem =>
      ih item hitem fun x hx => hnumbers x (mem_list_of_mem hitem hx)

theorem IsDatum.of_mem (h : v.IsDatum accepted) {part : Value} (hpart : part ∈ v) :
    part.IsDatum accepted := by
  induction h with
  | number number => exact mem_number_iff.1 hpart ▸ .number number
  | symbol word not_literal => exact mem_symbol_iff.1 hpart ▸ .symbol word not_literal
  | list all ih =>
    rcases mem_list_iff.1 hpart with rfl | ⟨item, hitem, hpart⟩
    · exact .list all
    · exact ih item hitem hpart

/-- Data as programs can write them: their numbers are numbers. -/
def IsPlainDatum : Value → Prop :=
  IsDatum fun x => x.isNaN = false

/-- Reading answers plain data. -/
theorem isPlainDatum_of_ofText {text : String} (h : ofText text = .ok v) : v.IsPlainDatum := by
  refine (isDatum_of_ofText h).of_numbers fun x hx => ?_
  obtain ⟨tree, -, rfl⟩ := Tree.exists_tree_of_read ((ofText_eq_ok_iff_read text v).1 h)
  obtain ⟨d, rfl⟩ := Tree.exists_decimal_of_mem_value hx
  exact d.isNaN_toFloat

namespace IsPlainDatum

theorem isNaN_of_mem (h : v.IsPlainDatum) {x : Float} (hx : .number x ∈ v) : x.isNaN = false :=
  isDatum_number_iff.1 (h.of_mem hx)

theorem boolean_not_mem (h : v.IsPlainDatum) (b : Bool) : .boolean b ∉ v :=
  fun hb => nomatch h.of_mem hb

theorem procedure_not_mem (h : v.IsPlainDatum) (p : Procedure) : .procedure p ∉ v :=
  fun hp => nomatch h.of_mem hp

theorem equals_self (h : v.IsPlainDatum) : v.equals v = true :=
  equals_iff_same.2 (Same.self_iff.2 fun _ => h.isNaN_of_mem)

/-- Plain data without infinite numbers are readable. -/
theorem readable (h : v.IsPlainDatum) (hfinite : ∀ x, .number x ∈ v → x.isInf = false) :
    v.Readable :=
  h.of_numbers fun x hx =>
    Binary64.isFinite_of_not_nan_of_not_inf (h.isNaN_of_mem hx) (hfinite x hx)

end IsPlainDatum
end Value
end ScopedLisp
