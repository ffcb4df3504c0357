import ScopedLisp.Proofs.Reading.Balance

/-! # Reading on

Reading goes on where the last step stopped, also after an error. A step reads one expression or checks
that nothing is left. What a step answers and what it leaves is settled by the tokens in front of it:
the first balanced beginning is taken off as a whole, a stray closing parenthesis alone, and a list that
is never closed takes everything along. -/

namespace ScopedLisp

/-- What is done with the tokens that are left: one expression is read, or nothing more may come. -/
inductive ReadStep where
  | expression
  | finish

/-- The answer to a step. -/
inductive ReadAnswer where
  | expression (outcome : Except ReadError Value)
  | finish (outcome : Except ReadError Unit)

namespace ReadStep
open Token

/-- The answer to a step, and the tokens that it leaves. -/
def perform : ReadStep → List Token → ReadAnswer × List Token
  | expression, ts => (.expression (Value.read ts).outcome, (Value.read ts).rest)
  | finish, ts => (.finish (Value.finish ts), [])

/-- The answers to steps one after the other, and the tokens that the last one leaves. -/
def performAll : List ReadStep → List Token → List ReadAnswer × List Token
  | [], ts => ([], ts)
  | step :: steps, ts =>
    let (answer, rest) := step.perform ts
    let (answers, rest) := performAll steps rest
    (answer :: answers, rest)

/-- `Performs step ts answer rest`: what a step should answer, and leave, before some tokens. -/
inductive Performs : ReadStep → List Token → ReadAnswer → List Token → Prop
  | atEnd : Performs expression [] (.expression (.error .unexpectedEnd)) []
  | stray {tail} :
      Performs expression (.closing :: tail) (.expression (.error .unexpectedClosing)) tail
  /-- The tree of the first balanced beginning is the answer. -/
  | balanced {ts k} {tree : Tree} (starts : Starts ts) (first : FirstBalance ts k)
      (tokens : tree.tokens = ts.take k) :
      Performs expression ts (.expression (.ok tree.value)) (ts.drop k)
  | unclosed {ts} (opens : ts.head? = some .opening) (unbalanced : ¬ ∃ k, FirstBalance ts k) :
      Performs expression ts (.expression (.error .unexpectedEnd)) []
  | finished : Performs finish [] (.finish (.ok ())) []
  | closes {ts} (closing : .closing ∈ ts) :
      Performs finish ts (.finish (.error .unexpectedClosing)) []
  | goesOn {token rest} (closing : .closing ∉ token :: rest) :
      Performs finish (token :: rest) (.finish (.error (.trailing token.text))) []

/-- `PerformsAll steps ts answers rest`: each step should start from the tokens that the one before
leaves. -/
inductive PerformsAll : List ReadStep → List Token → List ReadAnswer → List Token → Prop
  | nil {ts} : PerformsAll [] ts [] ts
  | cons {step steps ts answer answers middle rest} (first : Performs step ts answer middle)
      (later : PerformsAll steps middle answers rest) :
      PerformsAll (step :: steps) ts (answer :: answers) rest

variable {step : ReadStep} {steps : List ReadStep} {ts rest : List Token}

theorem Performs.perform_eq {answer : ReadAnswer} (h : Performs step ts answer rest) :
    step.perform ts = (answer, rest) := by
  cases h with
  | atEnd | stray | finished => rfl
  | @balanced _ k tree _ _ tokens =>
    have hread := Tree.read_tokens tree (ts.drop k)
    rw [tokens, List.take_append_drop] at hread
    rw [perform, hread]
  | unclosed opens unbalanced =>
    rcases Value.read_cases (.inl opens) with ⟨v, k, hk, -⟩ | ⟨-, -, hread⟩
    · exact absurd ⟨k, hk⟩ unbalanced
    · rw [perform, hread]
  | closes closing =>
    cases ts with
    | nil => cases closing
    | cons token rest => rw [perform, Value.finish, if_pos closing]
  | goesOn closing => rw [perform, Value.finish, if_neg closing]

theorem performs_expression (ts : List Token) :
    Performs expression ts (expression.perform ts).1 (expression.perform ts).2 := by
  by_cases starts : Starts ts
  · rcases Value.read_cases starts with ⟨v, k, hk, hread⟩ | ⟨opens, unbalanced, hread⟩
    · obtain ⟨tree, htokens, rfl⟩ := Tree.exists_tree_of_read hread
      have hparts : tree.tokens ++ ts.drop k = ts.take k ++ ts.drop k := by
        rw [List.take_append_drop, ← htokens]
      rw [perform, hread]
      exact .balanced starts hk (List.append_cancel_right hparts)
    · rw [perform, hread]
      exact .unclosed opens unbalanced
  · match ts with
    | [] => exact .atEnd
    | .closing :: tail => exact .stray
    | .opening :: tail => exact absurd (.inl rfl) starts
    | .atom text :: tail => exact absurd (.inr ⟨text, rfl⟩) starts

theorem performs_finish (ts : List Token) :
    Performs finish ts (finish.perform ts).1 (finish.perform ts).2 := by
  cases ts with
  | nil => exact .finished
  | cons token rest =>
    by_cases closing : .closing ∈ token :: rest
    · rw [perform, Value.finish, if_pos closing]
      exact .closes closing
    · rw [perform, Value.finish, if_neg closing]
      exact .goesOn closing

/-- A step does what it should, and nothing else. -/
theorem perform_eq_iff {answer : ReadAnswer} :
    step.perform ts = (answer, rest) ↔ Performs step ts answer rest := by
  refine ⟨fun h => ?_, Performs.perform_eq⟩
  obtain ⟨rfl, rfl⟩ := Prod.mk.inj h
  cases step with
  | expression => exact performs_expression ts
  | finish => exact performs_finish ts

/-- Steps do what they should, one after the other. -/
theorem performAll_eq_iff {answers : List ReadAnswer} :
    performAll steps ts = (answers, rest) ↔ PerformsAll steps ts answers rest := by
  constructor
  · intro h
    induction steps generalizing ts answers with
    | nil =>
      cases h
      exact .nil
    | cons step steps ih =>
      cases h
      exact .cons (perform_eq_iff.1 rfl) (ih rfl)
  · intro h
    induction h with
    | nil => rfl
    | cons first _ ih => simp only [performAll, first.perform_eq, ih]

/-- Expressions one after the other are read one by one. -/
theorem performAll_tokensOfAll (trees : List Tree) (rest : List Token) :
    performAll (List.replicate trees.length expression) (Tree.tokensOfAll trees ++ rest) =
      (trees.map fun tree => .expression (.ok tree.value), rest) := by
  induction trees with
  | nil => rfl
  | cons tree trees ih =>
    rw [Tree.tokensOfAll, List.append_assoc, List.length_cons, List.replicate_succ, List.map_cons]
    simp only [performAll, perform, Tree.read_tokens, ih]

/-- Whatever steps are taken, each answers and leaves what it should before the tokens that the steps
before left; and from the tokens of some expressions as many steps take just these expressions. -/
theorem performAll_classified :
    (∀ (steps : List ReadStep) (ts : List Token) (answers : List ReadAnswer) (rest : List Token),
      performAll steps ts = (answers, rest) ↔ PerformsAll steps ts answers rest) ∧
    ∀ (trees : List Tree) (rest : List Token),
      performAll (List.replicate trees.length expression) (Tree.tokensOfAll trees ++ rest) =
        (trees.map fun tree => .expression (.ok tree.value), rest) :=
  ⟨fun _ _ _ _ => performAll_eq_iff, performAll_tokensOfAll⟩

end ReadStep
end ScopedLisp
