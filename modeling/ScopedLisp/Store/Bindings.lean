/-! # Bindings

A finite map from names to what they are bound to, kept as pairs in ascending order of the names.
The order is part of the type, so two maps with the same answers are the same (`ext_get?`). -/

namespace ScopedLisp

/-- Names with what they are bound to, in ascending order. -/
structure Bindings (α : Type) where
  entries : List (String × α)
  ascending : entries.Pairwise fun a b => a.1 < b.1

namespace Bindings
variable {α : Type}

/-- No bindings. -/
def empty : Bindings α := ⟨[], .nil⟩

instance : EmptyCollection (Bindings α) := ⟨empty⟩
instance : Inhabited (Bindings α) := ⟨empty⟩

/-- What the first pair with a name holds. -/
def find? (name : String) : List (String × α) → Option α
  | [] => none
  | entry :: rest => if name = entry.1 then some entry.2 else find? name rest

/-- What a name is bound to. -/
def get? (b : Bindings α) (name : String) : Option α :=
  find? name b.entries

/-- Whether a name is bound. -/
def contains (b : Bindings α) (name : String) : Bool :=
  (b.get? name).isSome

/-- The bound names, ascending. -/
def names (b : Bindings α) : List String :=
  b.entries.map Prod.fst

theorem find?_isSome_iff {name : String} {entries : List (String × α)} :
    (find? name entries).isSome ↔ name ∈ entries.map Prod.fst := by
  induction entries with
  | nil => simp [find?]
  | cons first rest ih =>
    rw [find?, List.map_cons, List.mem_cons, ← ih]
    split <;> simp_all

theorem mem_names_iff {b : Bindings α} {name : String} : name ∈ b.names ↔ b.contains name :=
  find?_isSome_iff.symm

/-- Puts a pair at its place, over an older pair with the same name. -/
def insertEntry (name : String) (value : α) : List (String × α) → List (String × α)
  | [] => [(name, value)]
  | entry :: rest =>
    if name = entry.1 then (name, value) :: rest
    else if name < entry.1 then (name, value) :: entry :: rest
    else entry :: insertEntry name value rest

theorem mem_insertEntry {name : String} {value : α} {entry : String × α}
    {entries : List (String × α)} (h : entry ∈ insertEntry name value entries) :
    entry.1 = name ∨ entry ∈ entries := by
  induction entries with
  | nil => simp_all [insertEntry]
  | cons first rest ih =>
    simp only [insertEntry] at h
    split at h
    · rcases List.mem_cons.1 h with rfl | h
      · exact .inl rfl
      · exact .inr (List.mem_cons_of_mem _ h)
    · split at h
      · rcases List.mem_cons.1 h with rfl | h
        · exact .inl rfl
        · exact .inr h
      · rcases List.mem_cons.1 h with rfl | h
        · exact .inr List.mem_cons_self
        · exact (ih h).imp_right (List.mem_cons_of_mem _)

theorem pairwise_insertEntry {name : String} {value : α} {entries : List (String × α)}
    (h : entries.Pairwise fun a b => a.1 < b.1) :
    (insertEntry name value entries).Pairwise fun a b => a.1 < b.1 := by
  induction entries with
  | nil => simp [insertEntry]
  | cons first rest ih =>
    obtain ⟨hfirst, hrest⟩ := List.pairwise_cons.1 h
    simp only [insertEntry]
    split
    · next heq => exact List.pairwise_cons.2 ⟨fun entry he => heq ▸ hfirst entry he, hrest⟩
    · next hne =>
      split
      · next hlt =>
        refine List.pairwise_cons.2 ⟨fun entry he => ?_, h⟩
        rcases List.mem_cons.1 he with rfl | he
        · exact hlt
        · exact String.lt_trans hlt (hfirst entry he)
      · next hlt =>
        refine List.pairwise_cons.2 ⟨fun entry he => ?_, ih hrest⟩
        rcases mem_insertEntry he with hname | he
        · exact hname ▸ Std.lt_of_le_of_ne (String.not_lt.1 hlt) (Ne.symm hne)
        · exact hfirst entry he

/-- Binds a name, over what it was bound to before. -/
def insert (b : Bindings α) (name : String) (value : α) : Bindings α :=
  ⟨insertEntry name value b.entries, pairwise_insertEntry b.ascending⟩

/-- The bindings that a sequence of pairs makes; a later pair wins over an earlier one. -/
def ofList (pairs : List (String × α)) : Bindings α :=
  pairs.foldl (fun b (name, value) => b.insert name value) empty

@[simp] theorem get?_empty (name : String) : (empty : Bindings α).get? name = none := rfl

theorem find?_insertEntry (name key : String) (value : α) (entries : List (String × α)) :
    find? key (insertEntry name value entries) =
      if key = name then some value else find? key entries := by
  induction entries with
  | nil => rfl
  | cons first rest ih =>
    simp only [insertEntry]
    split
    · next heq => by_cases h : key = name <;> simp_all [find?]
    · split
      · rfl
      · by_cases hf : key = first.1
        · have hne : key ≠ name := fun hk => by simp_all
          rw [find?, if_pos hf, if_neg hne, find?, if_pos hf]
        · simp [find?, hf, ih]

/-- A name is bound to what it was bound to last. -/
@[simp] theorem get?_insert (b : Bindings α) (name key : String) (value : α) :
    (b.insert name value).get? key = if key = name then some value else b.get? key :=
  find?_insertEntry name key value b.entries

/-- A name before all the names of a sequence is not among them. -/
theorem find?_eq_none_of_lt {name : String} {entries : List (String × α)}
    (h : ∀ entry ∈ entries, name < entry.1) : find? name entries = none := by
  induction entries with
  | nil => rfl
  | cons first rest ih =>
    have hne : name ≠ first.1 := fun he => String.lt_irrefl _ (he ▸ h first List.mem_cons_self)
    rw [find?, if_neg hne]
    exact ih fun entry he => h entry (List.mem_cons_of_mem _ he)

theorem entries_eq_of_find? {left right : List (String × α)}
    (hleft : left.Pairwise fun a b => a.1 < b.1) (hright : right.Pairwise fun a b => a.1 < b.1)
    (h : ∀ name, find? name left = find? name right) : left = right := by
  induction left generalizing right with
  | nil =>
    cases right with
    | nil => rfl
    | cons first _ => simpa [find?] using h first.1
  | cons first rest ih =>
    cases right with
    | nil => simpa [find?] using h first.1
    | cons other rest' =>
      obtain ⟨hfirst, hrest⟩ := List.pairwise_cons.1 hleft
      obtain ⟨hother, hrest'⟩ := List.pairwise_cons.1 hright
      have hname : first.1 = other.1 := by
        by_cases hne : first.1 = other.1
        · exact hne
        · rcases String.le_total first.1 other.1 with hle | hle
          · have hlt := Std.lt_of_le_of_ne hle hne
            have := h first.1
            rw [find?, if_pos rfl, find?, if_neg hne, find?_eq_none_of_lt fun entry he =>
              String.lt_trans hlt (hother entry he)] at this
            cases this
          · have hlt := Std.lt_of_le_of_ne hle (Ne.symm hne)
            have := h other.1
            rw [find?, if_neg (Ne.symm hne), find?, if_pos rfl, find?_eq_none_of_lt fun entry he =>
              String.lt_trans hlt (hfirst entry he)] at this
            cases this
      have hvalue : first.2 = other.2 := by simpa [find?, hname] using h first.1
      have htail : rest = rest' := by
        refine ih hrest hrest' fun name => ?_
        by_cases hn : name = first.1
        · rw [hn, find?_eq_none_of_lt hfirst, hname, find?_eq_none_of_lt hother]
        · have := h name
          rwa [find?, if_neg hn, find?, if_neg (hname ▸ hn)] at this
      rw [Prod.ext hname hvalue, htail]

/-- Bindings with the same answers are the same. -/
theorem ext_get? {a b : Bindings α} (h : ∀ name, a.get? name = b.get? name) : a = b := by
  have := entries_eq_of_find? a.ascending b.ascending h
  cases a
  cases b
  simp_all

theorem mem_of_get?_foldl {pairs : List (String × α)} {b : Bindings α} {name : String} {value : α}
    (h : (pairs.foldl (fun b (name, value) => b.insert name value) b).get? name = some value) :
    (name, value) ∈ pairs ∨ b.get? name = some value := by
  induction pairs generalizing b with
  | nil => exact .inr h
  | cons pair pairs ih =>
    rcases ih h with h | h
    · exact .inl (List.mem_cons_of_mem _ h)
    · rw [get?_insert] at h
      split at h
      · next hname =>
        obtain rfl := Option.some.inj h
        exact .inl (hname ▸ List.mem_cons_self)
      · exact .inr h

/-- What a sequence of pairs binds is in one of the pairs. -/
theorem mem_of_get?_ofList {pairs : List (String × α)} {name : String} {value : α}
    (h : (ofList pairs).get? name = some value) : (name, value) ∈ pairs :=
  (mem_of_get?_foldl h).resolve_right nofun

theorem mem_of_get?_ofList_zip {names : List String} {values : List α} {name : String} {value : α}
    (h : (ofList (names.zip values)).get? name = some value) : name ∈ names ∧ value ∈ values :=
  List.of_mem_zip (mem_of_get?_ofList h)

theorem mem_of_contains_ofList_zip {names : List String} {values : List α} {name : String}
    (h : (ofList (names.zip values)).contains name) : name ∈ names :=
  let ⟨_, hvalue⟩ := Option.isSome_iff_exists.1 h
  (mem_of_get?_ofList_zip hvalue).1

theorem get?_foldl_of_not_mem {pairs : List (String × α)} {b : Bindings α} {name : String}
    (h : name ∉ pairs.map Prod.fst) :
    (pairs.foldl (fun b (name, value) => b.insert name value) b).get? name = b.get? name := by
  induction pairs generalizing b with
  | nil => rfl
  | cons pair pairs ih =>
    rw [List.map_cons, List.mem_cons, not_or] at h
    rw [List.foldl_cons, ih h.2, get?_insert, if_neg h.1]

theorem get?_foldl_of_mem {pairs : List (String × α)} {b : Bindings α} {name : String} {value : α}
    (hdistinct : (pairs.map Prod.fst).Nodup) (h : (name, value) ∈ pairs) :
    (pairs.foldl (fun b (name, value) => b.insert name value) b).get? name = some value := by
  induction pairs generalizing b with
  | nil => cases h
  | cons pair pairs ih =>
    rw [List.map_cons, List.nodup_cons] at hdistinct
    rcases List.mem_cons.1 h with rfl | h
    · rw [List.foldl_cons, get?_foldl_of_not_mem hdistinct.1, get?_insert, if_pos rfl]
    · exact ih hdistinct.2 h

/-- Pairs with distinct names are all bound. -/
theorem get?_ofList_of_mem {pairs : List (String × α)} {name : String} {value : α}
    (hdistinct : (pairs.map Prod.fst).Nodup) (h : (name, value) ∈ pairs) :
    (ofList pairs).get? name = some value :=
  get?_foldl_of_mem hdistinct h

end Bindings
end ScopedLisp
