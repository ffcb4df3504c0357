import ScopedLisp.Proofs.Printing.Numerals
import ScopedLisp.Proofs.Reading.Tree
import ScopedLisp.Store.Text

/-! # Printing and reading back

The text of a value made of lists, numbers and words is cut into the tokens of one tree, with an
atom for each number and each symbol. Reading can only answer such values, and the tree stands for
the value that was printed unless a number in it is not finite. So a value reads back as itself
exactly if it is readable. -/

namespace ScopedLisp
open Text Token

namespace Value

/-- Lists, at any depth, of accepted numbers and of symbols that are words and no literals. -/
inductive IsDatum (accepted : Float → Prop) : Value → Prop
  | number {x : Float} (number : accepted x) : IsDatum accepted (.number x)
  | symbol {name : String} (word : IsWord name)
      (not_literal : Literal.decimal? name.toList = none) : IsDatum accepted (.symbol name)
  | list {items : List Value} (all : ∀ item ∈ items, IsDatum accepted item) :
      IsDatum accepted (.list items)

/-- A value without booleans and procedures whose numbers are finite and whose symbols are words
that are not spelled like numbers. -/
def Readable : Value → Prop :=
  IsDatum fun x => x.isFinite = true

variable {accepted : Float → Prop}

theorem isDatum_number_iff {x : Float} : IsDatum accepted (.number x) ↔ accepted x :=
  ⟨fun | .number h => h, .number⟩

theorem isDatum_list_iff {items : List Value} :
    IsDatum accepted (.list items) ↔ ∀ item ∈ items, IsDatum accepted item :=
  ⟨fun | .list h => h, .list⟩

theorem isDatum_ofAtom {text : String} (h : IsWord text) :
    IsDatum (fun _ => True) (ofAtom text) := by
  rw [ofAtom]
  split
  · exact .number trivial
  · next hliteral => exact .symbol h hliteral

end Value

mutual

/-- Reading answers data: the words of a text are numbers and symbols. -/
theorem Tree.isDatum_value {tree : Tree} (h : ∀ text, .atom text ∈ tree.tokens → IsWord text) :
    tree.value.IsDatum fun _ => True := by
  match tree with
  | .leaf text => exact Value.isDatum_ofAtom (h text (by simp [Tree.tokens]))
  | .node children =>
    exact .list (Tree.isDatum_values fun text htext => h text (by simp [Tree.tokens, htext]))

theorem Tree.isDatum_values {trees : List Tree}
    (h : ∀ text, .atom text ∈ Tree.tokensOfAll trees → IsWord text) :
    ∀ item ∈ Tree.values trees, item.IsDatum fun _ => True := by
  match trees with
  | [] => simp
  | tree :: trees =>
    rw [Tree.values, List.forall_mem_cons]
    exact ⟨Tree.isDatum_value fun text htext => h text (by simp [Tree.tokensOfAll, htext]),
      Tree.isDatum_values fun text htext => h text (by simp [Tree.tokensOfAll, htext])⟩

end

theorem Value.isDatum_of_ofText {text : String} {v : Value} (h : ofText text = .ok v) :
    v.IsDatum fun _ => True := by
  rw [ofText_eq_ok_iff_read] at h
  obtain ⟨tree, htokens, rfl⟩ := Tree.exists_tree_of_read h
  rw [List.append_nil] at htokens
  exact Tree.isDatum_value fun text htext => isWord_of_mem_scan (htokens ▸ htext)

namespace Store

@[simp] theorem texts_eq_map (s : Store) (items : List Value) :
    s.texts items = items.map s.text := by
  induction items with
  | nil => rfl
  | cons item rest ih => simp [texts, ih]

mutual

/-- The tree whose atoms are the texts of the numbers and symbols in a value. -/
def tree (s : Store) : Value → Tree
  | .list items => .node (trees s items)
  | v => .leaf (s.text v)

/-- The trees of a sequence of values. -/
def trees (s : Store) : List Value → List Tree
  | [] => []
  | item :: rest => tree s item :: trees s rest

end

@[simp] theorem trees_eq_map (s : Store) (items : List Value) :
    s.trees items = items.map s.tree := by
  induction items with
  | nil => rfl
  | cons item rest ih => simp [trees, ih]

variable {accepted : Float → Prop}

/-- A sequence of texts between blanks has the tokens of each text in turn. -/
theorem scan_texts (s : Store) {items : List Value}
    (h : ∀ item ∈ items, ∀ rest, Stops isAtomChar rest →
      scan ((s.text item).toList ++ rest) = (s.tree item).tokens ++ scan rest)
    {rest : List Char} (hrest : Stops isAtomChar rest) :
    scan ((" ".intercalate (items.map s.text)).toList ++ rest) =
      Tree.tokensOfAll (items.map s.tree) ++ scan rest := by
  induction items with
  | nil => simp [Tree.tokensOfAll]
  | cons item items ih =>
    rw [List.forall_mem_cons] at h
    obtain ⟨hitem, hitems⟩ := h
    cases items with
    | nil => simpa [Tree.tokensOfAll] using hitem rest hrest
    | cons next items =>
      have hblank : isBlank ' ' = true := by decide
      have hspace : ∀ cs, Stops isAtomChar (' ' :: cs) := fun cs => stops_cons.2 (by decide)
      have hnext := ih hitems
      simp only [List.map_cons, String.intercalate_cons_cons, String.toList_append,
        List.append_assoc] at hnext ⊢
      rw [show " ".toList = [' '] from rfl, List.singleton_append, hitem _ (hspace _),
        scan_blank hblank, hnext]
      simp [Tree.tokensOfAll]

/-- The text of a datum has the tokens of its tree. -/
theorem scan_text (s : Store) {v : Value} (h : v.IsDatum accepted) {rest : List Char}
    (hrest : Stops isAtomChar rest) :
    scan ((s.text v).toList ++ rest) = (s.tree v).tokens ++ scan rest := by
  induction h generalizing rest with
  | number => exact scan_word (Number.isWord_text _) hrest
  | symbol word _ => exact scan_word word hrest
  | @list items all ih =>
    have hclosing : Stops isAtomChar (')' :: rest) := stops_cons.2 (by decide)
    have hitems := s.scan_texts (fun item hitem rest => ih item hitem) hclosing
    have htext : (s.text (.list items)).toList ++ rest =
        '(' :: ((" ".intercalate (items.map s.text)).toList ++ ')' :: rest) := by
      simp [text]
    rw [htext, scan_opening, hitems, scan_closing]
    simp [tree, Tree.tokens]

theorem ofText_text (s : Store) {v : Value} (h : v.IsDatum accepted) :
    Token.ofText (s.text v) = (s.tree v).tokens := by
  simpa [Token.ofText] using s.scan_text h (stops_nil _)

/-- The tree of a datum stands for the datum if its numbers are finite, and only then. -/
theorem value_tree_eq_iff (s : Store) {v : Value} (h : v.IsDatum accepted) :
    (s.tree v).value = v ↔ v.Readable := by
  induction h with
  | number =>
    rw [Value.Readable, Value.isDatum_number_iff]
    exact Number.ofAtom_text_eq_iff _
  | @symbol name word not_literal =>
    have hvalue : Value.ofAtom name = .symbol name := by
      simp [Value.ofAtom, not_literal]
    exact iff_of_true hvalue (.symbol word not_literal)
  | @list items all ih =>
    have hmap : items.map (Tree.value ∘ s.tree) = items ↔
        ∀ item ∈ items, (s.tree item).value = item := by
      simpa using List.map_inj_left (l := items) (f := Tree.value ∘ s.tree) (g := id)
    rw [Value.Readable, Value.isDatum_list_iff, tree, Tree.value, Value.list.injEq,
      Tree.values_eq_map, trees_eq_map, List.map_map, hmap]
    exact forall₂_congr ih

end Store

theorem Value.ofText_text_of_readable (s : Store) {v : Value} (h : v.Readable) :
    Value.ofText (s.text v) = .ok v := by
  have htree := (s.value_tree_eq_iff h).2 h
  have hread := Tree.read_tokens (s.tree v) []
  rwa [htree, List.append_nil, ← s.ofText_text h, ← ofText_eq_ok_iff_read] at hread

/-- Printing and reading back gives the same value exactly if the value is readable. -/
theorem Value.ofText_text_eq_iff_readable (s : Store) (v : Value) :
    Value.ofText (s.text v) = .ok v ↔ v.Readable := by
  constructor
  · intro h
    rw [ofText_eq_ok_iff_read] at h
    obtain ⟨tree, htokens, rfl⟩ := Tree.exists_tree_of_read h
    rw [List.append_nil] at htokens
    have hdatum : tree.value.IsDatum fun _ => True :=
      Tree.isDatum_value fun text htext => isWord_of_mem_scan (htokens ▸ htext)
    have hsame : s.tree tree.value = tree := by
      rw [s.ofText_text hdatum] at htokens
      exact Tree.tokens_inj htokens
    exact (s.value_tree_eq_iff hdatum).1 (congrArg Tree.value hsame)
  · exact ofText_text_of_readable s

end ScopedLisp
