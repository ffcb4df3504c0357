import ScopedLisp.Proofs.Evaluation.Completeness
import ScopedLisp.Proofs.Sessions.Provenance

/-! # What names get bound

Definitions, bindings of a `let` and parameters of a closure are the ways to bind a name, and each of
them is closed to string literals and to keywords; for a parameter this is checked when the closure is
made. In a session, where code is read from texts, only words get bound that are no literals either,
and keywords never have a meaning of their own. -/

namespace ScopedLisp
open Text Token

/-- The discipline of binding names that can be bound, whatever values and code there are. -/
def Discipline.bindable : Discipline where
  value _ := True
  code _ := True
  name := IsBindable
  shown _ := True
  number _ := trivial
  boolean _ := trivial
  closure _ := trivial
  gather _ _ := trivial
  value_of_code := id
  code_of_mem _ _ := trivial
  name_of_code _ := id
  shown_of_code := id
  shown_builtin _ := trivial
  shown_text _ _ := trivial

/-- Names that evaluation binds are no string literals and no keywords, as long as no parameters are. -/
theorem isBindable_of_evaluates {s t : Store}
    (hparams : ∀ c closure, s.closure? c = some closure → ∀ param ∈ closure.params, IsBindable param)
    {e : Value} {a : ScopeId} {r : Except EvalError Value} (h : Evaluates e a s r t) (b : ScopeId)
    (name : String) (hname : (t.own? b name).isSome) :
    (s.own? b name).isSome ∨ IsBindable name := by
  have hs : Discipline.bindable.Keeps s s :=
    ⟨fun _ => trivial, .inl, fun hc => hparams _ _ hc, fun _ => trivial⟩
  obtain ⟨depth, hends⟩ := h.eventually.exists
  exact (hs.of_ended trivial hends).1.name hname

/-- A symbol that is no string literal and has no meaning is unbound, and this is all that evaluating
it can come to. -/
theorem evaluates_symbol_iff {s t : Store} {a : ScopeId} {name : String}
    {r : Except EvalError Value} (hplain : Value.isQuotedName name = false)
    (hunbound : s.get? a name = none) :
    Evaluates (.symbol name) a s r t ↔ r = .error (.unbound name) ∧ t = s := by
  constructor
  · intro h
    cases h with
    | literal literal => exact absurd (literal.symm.trans hplain) (by simp)
    | bound _ bound => cases bound.symm.trans hunbound
    | unbound => exact ⟨rfl, rfl⟩
  · rintro ⟨rfl, rfl⟩
    exact .unbound hplain hunbound

theorem Form.isKeyword_keyword (form : Form) : isKeyword form.keyword = true := by
  rw [isKeyword, ofKeyword?_keyword, Option.isSome_some]

theorem Form.isQuotedName_keyword (form : Form) : Value.isQuotedName form.keyword = false := by
  cases form <;> decide +kernel

namespace Session
variable {session : Session}

/-- All names that are bound in a session are written as words. -/
theorem Reached.isWrittenName (h : session.Reached) {a : ScopeId} {name : String}
    (hname : (session.store.own? a name).isSome) : IsWrittenName name :=
  (h.keeps.name hname).resolve_left (by simp [Store.own?, Store.scope?, Store.empty])

/-- In a session a keyword has no meaning as a name. -/
theorem Reached.get?_keyword (h : session.Reached) (a : ScopeId) (form : Form) :
    session.store.get? a form.keyword = none := by
  rw [Store.get?, List.findSome?_eq_none_iff]
  intro b _
  rw [← Option.not_isSome_iff_eq_none]
  intro hown
  exact Bool.false_ne_true ((h.isWrittenName hown).bindable.2.symm.trans form.isKeyword_keyword)

end Session

/-- What evaluation binds can be bound: it is no string literal and no keyword. So all names bound in
a session are words that are neither these nor literals, and a keyword on its own is unbound. -/
theorem bound_names :
    (∀ {s t : Store} {e : Value} {a : ScopeId} {r : Except EvalError Value},
      (∀ c closure, s.closure? c = some closure → ∀ param ∈ closure.params, IsBindable param) →
      Evaluates e a s r t → ∀ b name, (t.own? b name).isSome →
        (s.own? b name).isSome ∨ IsBindable name) ∧
    ∀ {session : Session}, session.Reached →
      (∀ a name, (session.store.own? a name).isSome → IsWrittenName name) ∧
      ∀ (form : Form) a r t, Evaluates (.symbol form.keyword) a session.store r t ↔
        r = .error (.unbound form.keyword) ∧ t = session.store := by
  refine ⟨fun hparams h => isBindable_of_evaluates hparams h,
    fun h => ⟨fun a name => h.isWrittenName, fun form a r t => ?_⟩⟩
  exact evaluates_symbol_iff form.isQuotedName_keyword (h.get?_keyword a form)

/-- A closure binds its parameter and defines another name, before the evaluation that called it
fails. -/
theorem bound_names_of_failure :
    ∃ (session : Session) (t : Store), session.Reached ∧
      (session.store.closure? ⟨0⟩).map Closure.params = some ["x"] ∧
      Evaluates (.list [.symbol "+", .list [.symbol "f", .number 1], .symbol "u"]) ⟨0⟩
        session.store (.error (.unbound "u")) t ∧
      ((session.store.own? ⟨1⟩ "y").isSome ∨ IsBindable "y") ∧
      session.store.ownNames ⟨1⟩ = [] ∧ t.ownNames ⟨1⟩ = ["x", "y"] ∧
      (∀ a name, (session.store.own? a name).isSome → IsWrittenName name) ∧
      ∀ (form : Form) a r u, Evaluates (.symbol form.keyword) a session.store r u ↔
        r = .error (.unbound form.keyword) ∧ u = session.store := by
  have hshown : ((Session.start.run 10 "(define f (lambda (x) (define y x)))").answer?.bind
      fun shown => (Evaluator.within 10 (.list [.symbol "+", .list [.symbol "f", .number 1],
        .symbol "u"]) ⟨0⟩ shown.2).answer?.map fun later =>
          (((shown.2.closure? ⟨0⟩).map Closure.params, shown.2.ownNames ⟨1⟩), later.1,
            later.2.ownNames ⟨1⟩, (later.2.own? ⟨1⟩ "y").isSome)) =
        some ((some ["x"], []), .error (.unbound "u"), ["x", "y"], true) := by decide +kernel
  obtain ⟨⟨answer, s⟩, hanswer, hlater⟩ := Option.bind_eq_some_iff.1 hshown
  obtain ⟨⟨answer', t⟩, hanswer', heq⟩ := Option.map_eq_some_iff.1 hlater
  simp only [Prod.mk.injEq] at heq
  obtain ⟨⟨hparams, hbefore⟩, rfl, hafter, hown⟩ := heq
  obtain ⟨r, hends⟩ := Outcome.exists_ended_of_answer? hanswer
  have hreached : Session.Reached { Session.start with store := s } := .run .start hends
  have hfails : Evaluates (.list [.symbol "+", .list [.symbol "f", .number 1], .symbol "u"]) ⟨0⟩
      s (.error (.unbound "u")) t := by
    obtain ⟨r', hends'⟩ := Outcome.exists_ended_of_answer? hanswer'
    rw [hends', Outcome.answer?_ended] at hanswer'
    cases r' with
    | ok v => cases hanswer'
    | error cause =>
      cases hanswer'
      exact Evaluator.within_sound 10 hends'
  have hbindable := bound_names.1 (fun c closure hc param hparam =>
    (hreached.keeps.params hc param hparam).bindable) hfails ⟨1⟩ "y" hown
  exact ⟨_, t, hreached, hparams, hfails, hbindable, hbefore, hafter, bound_names.2 hreached⟩

end ScopedLisp
