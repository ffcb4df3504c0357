import Mathlib.Data.List.Basic
import ScopedLisp.Value.Reading

/-! # Derivation trees

The grammar of expressions over tokens is `expression ::= atom | opening expression* closing`. A
tree records a derivation: its tokens are the sentence that it derives, and its value is what the
sentence means. Reading is a shift-reduce machine for this grammar. What it has consumed is the
beginning of a sentence, kept as trees still open, and so it accepts exactly the sentences. -/

namespace ScopedLisp

/-- A derivation: an atom, or the derivations between two parentheses. -/
inductive Tree where
  | leaf (text : String)
  | node (children : List Tree)

namespace Tree

mutual

/-- The sentence that a tree derives. -/
def tokens : Tree → List Token
  | .leaf text => [.atom text]
  | .node children => .opening :: (tokensOfAll children ++ [.closing])

/-- The sentences that trees derive, one after the other. -/
def tokensOfAll : List Tree → List Token
  | [] => []
  | tree :: rest => tokens tree ++ tokensOfAll rest

end

mutual

/-- The value that a tree stands for. -/
def value : Tree → Value
  | .leaf text => .ofAtom text
  | .node children => .list (values children)

/-- The values that trees stand for, in order. -/
def values : List Tree → List Value
  | [] => []
  | tree :: rest => value tree :: values rest

end

@[simp] theorem tokensOfAll_append (trees others : List Tree) :
    tokensOfAll (trees ++ others) = tokensOfAll trees ++ tokensOfAll others := by
  induction trees with
  | nil => rfl
  | cons tree rest ih => simp [tokensOfAll, ih]

@[simp] theorem values_eq_map (trees : List Tree) : values trees = trees.map value := by
  induction trees with
  | nil => rfl
  | cons tree rest ih => simp [values, ih]

mutual

theorem readInside_tokens (tree : Tree) (items : List Value) (around : List (List Value))
    (rest : List Token) :
    Value.readInside items around (tree.tokens ++ rest) =
      Value.readInside (tree.value :: items) around rest := by
  cases tree with
  | leaf text => rfl
  | node children =>
    simp only [tokens, List.cons_append, List.append_assoc, Value.readInside]
    rw [readInside_tokensOfAll children]
    simp [Value.readInside, value]

theorem readInside_tokensOfAll (trees : List Tree) (items : List Value)
    (around : List (List Value)) (rest : List Token) :
    Value.readInside items around (tokensOfAll trees ++ rest) =
      Value.readInside ((values trees).reverse ++ items) around rest := by
  cases trees with
  | nil => rfl
  | cons tree trees =>
    rw [tokensOfAll, List.append_assoc, readInside_tokens tree, readInside_tokensOfAll trees]
    simp

end

/-- Reading takes exactly the tokens of one tree off the front. -/
theorem read_tokens (tree : Tree) (rest : List Token) :
    Value.read (tree.tokens ++ rest) = ⟨.ok tree.value, rest⟩ := by
  cases tree with
  | leaf text => rfl
  | node children =>
    simp only [tokens, List.cons_append, List.append_assoc, Value.read]
    rw [readInside_tokensOfAll children]
    simp [Value.readInside, value]

/-- The tokens consumed when these trees are read and their lists are open, innermost list and last
tree first. -/
def opened (items : List Tree) : List (List Tree) → List Token
  | [] => .opening :: tokensOfAll items.reverse
  | outer :: around => opened outer around ++ .opening :: tokensOfAll items.reverse

theorem opened_cons (tree : Tree) (items : List Tree) (around : List (List Tree)) :
    opened (tree :: items) around = opened items around ++ tree.tokens := by
  cases around <;> simp [opened, tokensOfAll]

theorem exists_tree_of_readInside {items : List Tree} {around : List (List Tree)}
    {ts rest : List Token} {v : Value}
    (h : Value.readInside (items.map value) (around.map (List.map value)) ts = ⟨.ok v, rest⟩) :
    ∃ tree : Tree, opened items around ++ ts = tree.tokens ++ rest ∧ tree.value = v := by
  induction ts generalizing items around with
  | nil => cases h
  | cons token ts ih =>
    cases token with
    | atom text =>
      have step := @ih (.leaf text :: items) around h
      rwa [opened_cons, List.append_assoc] at step
    | opening =>
      have step := @ih [] (items :: around) h
      simpa [opened, tokensOfAll] using step
    | closing =>
      cases around with
      | nil =>
        simp only [Value.readInside, List.map_nil, Reading.mk.injEq, Except.ok.injEq] at h
        obtain ⟨rfl, rfl⟩ := h
        exact ⟨.node items.reverse, by simp [opened, tokens], by simp [value]⟩
      | cons outer around =>
        have step := @ih (.node items.reverse :: outer) around
          (by simpa [Value.readInside, value] using h)
        rw [opened_cons] at step
        simpa [opened, tokens] using step

/-- What reading answers is the value of a tree whose tokens it consumed. -/
theorem exists_tree_of_read {ts rest : List Token} {v : Value}
    (h : Value.read ts = ⟨.ok v, rest⟩) :
    ∃ tree : Tree, ts = tree.tokens ++ rest ∧ tree.value = v := by
  cases ts with
  | nil => cases h
  | cons token ts =>
    cases token with
    | atom text =>
      cases h
      exact ⟨.leaf text, rfl, rfl⟩
    | opening => exact @exists_tree_of_readInside [] [] _ _ _ h
    | closing => cases h

mutual

/-- No tree's tokens are a proper beginning of another's. -/
theorem tokens_append_inj {tree other : Tree} {rest rest' : List Token}
    (h : tree.tokens ++ rest = other.tokens ++ rest') : tree = other ∧ rest = rest' := by
  match tree, other with
  | .leaf text, .leaf text' => simpa [tokens] using h
  | .leaf text, .node children => simp [tokens] at h
  | .node children, .leaf text => simp [tokens] at h
  | .node children, .node children' =>
    simp only [tokens, List.cons_append, List.append_assoc, List.cons.injEq, true_and] at h
    obtain ⟨rfl, rfl⟩ := tokensOfAll_append_inj h
    exact ⟨rfl, rfl⟩

theorem tokensOfAll_append_inj {trees others : List Tree} {rest rest' : List Token}
    (h : tokensOfAll trees ++ .closing :: rest = tokensOfAll others ++ .closing :: rest') :
    trees = others ∧ rest = rest' := by
  match trees, others with
  | [], [] => simpa [tokensOfAll] using h
  | [], .leaf text :: others => simp [tokensOfAll, tokens] at h
  | [], .node children :: others => simp [tokensOfAll, tokens] at h
  | .leaf text :: trees, [] => simp [tokensOfAll, tokens] at h
  | .node children :: trees, [] => simp [tokensOfAll, tokens] at h
  | tree :: trees, other :: others =>
    simp only [tokensOfAll, List.append_assoc] at h
    obtain ⟨rfl, h⟩ := tokens_append_inj h
    obtain ⟨rfl, rfl⟩ := tokensOfAll_append_inj (List.append_cancel_left h)
    exact ⟨rfl, rfl⟩

end

theorem tokens_inj {tree other : Tree} (h : tree.tokens = other.tokens) : tree = other := by
  have hnil : tree.tokens ++ [] = other.tokens ++ [] := by rw [h]
  exact (tokens_append_inj hnil).1

end Tree

namespace Value

theorem finish_eq_ok_iff (ts : List Token) : finish ts = .ok () ↔ ts = [] := by
  cases ts with
  | nil => simp [finish]
  | cons token ts =>
    simp only [finish]
    split <;> simp

theorem ofText_of_read_error {s : String} {cause : ReadError} {rest : List Token}
    (h : read (Token.ofText s) = ⟨.error cause, rest⟩) : ofText s = .error cause := by
  simp [ofText, h, bind, Except.bind]

theorem ofText_of_read_ok {s : String} {v : Value} {rest : List Token}
    (h : read (Token.ofText s) = ⟨.ok v, rest⟩) : ofText s = (finish rest).map fun _ => v := by
  cases hfinish : finish rest <;> simp [ofText, h, hfinish, bind, Except.bind, pure, Except.pure,
    Except.map]

/-- A text is an expression if one can be read off its tokens and none is left. -/
theorem ofText_eq_ok_iff_read (s : String) (v : Value) :
    ofText s = .ok v ↔ read (Token.ofText s) = ⟨.ok v, []⟩ := by
  rcases hread : read (Token.ofText s) with ⟨outcome, rest⟩
  cases outcome with
  | error cause => simp [ofText_of_read_error hread]
  | ok value =>
    rw [ofText_of_read_ok hread, Reading.mk.injEq, ← finish_eq_ok_iff]
    cases finish rest <;> simp [Except.map]

/-- A text is an expression exactly if its tokens are a sentence. Its tree is then the only one. -/
theorem ofText_eq_ok_iff_exists_tree (s : String) (v : Value) :
    ofText s = .ok v ↔
      ∃ tree : Tree, tree.tokens = Token.ofText s ∧ tree.value = v ∧
        ∀ other : Tree, other.tokens = Token.ofText s → other = tree := by
  rw [ofText_eq_ok_iff_read]
  constructor
  · intro h
    obtain ⟨tree, htokens, hvalue⟩ := Tree.exists_tree_of_read h
    rw [List.append_nil] at htokens
    refine ⟨tree, htokens.symm, hvalue, fun other hother => ?_⟩
    exact Tree.tokens_inj (hother.trans htokens)
  · rintro ⟨tree, htokens, rfl, -⟩
    rw [← htokens]
    simpa using Tree.read_tokens tree []

end Value
end ScopedLisp
