import ScopedLisp.Proofs.Printing.OneLine
import ScopedLisp.Proofs.Reading.Balance
import ScopedLisp.Proofs.Scopes.Reachable
import ScopedLisp.Proofs.Simulation.Discipline
import ScopedLisp.Proofs.Values.Datum

/-! # Where the values of a session come from

All code of a session is read from texts, so it is plain data. Nothing that a session does puts
together a list or a symbol: numbers, booleans and procedures are computed, and all other values are
parts of code. That is a discipline, which the builtins keep and which every text that is run keeps,
whether it ends with a value or with an error. -/

namespace ScopedLisp
open Text Token

/-- Names that texts can bind: words that are no literals and can be bound. -/
structure IsWrittenName (name : String) : Prop where
  word : IsWord name
  not_literal : Literal.decimal? name.toList = none
  bindable : IsBindable name

/-- What values a session has: what can be computed, and what can be written. -/
inductive Value.Arises : Value → Prop
  | number {x} : Arises (.number x)
  | boolean {b} : Arises (.boolean b)
  | builtin {name operation} (known : (name, operation) ∈ Operation.builtins) :
      Arises (.procedure (.builtin name operation))
  | closure {c} : Arises (.procedure (.closure c))
  | datum {v} (datum : v.IsPlainDatum) : Arises v

theorem Operation.isWrittenName_of_mem_builtins {name : String} {operation : Operation}
    (h : (name, operation) ∈ builtins) : IsWrittenName name := by
  have hall : ∀ entry ∈ builtins, entry.1 ≠ "" ∧ entry.1.toList.all isAtomChar = true ∧
      Literal.decimal? entry.1.toList = none ∧ Value.isQuotedName entry.1 = false ∧
      Form.isKeyword entry.1 = false := by decide +kernel
  obtain ⟨hne, hchars, hliteral, hquoted, hkeyword⟩ := hall _ h
  exact ⟨⟨hne, List.all_eq_true.1 hchars⟩, hliteral, hquoted, hkeyword⟩

namespace Value

theorem Arises.of_list {items : List Value} (h : (Value.list items).Arises) :
    (Value.list items).IsPlainDatum :=
  match h with | .datum h => h

theorem Arises.of_symbol {name : String} (h : (Value.symbol name).Arises) :
    (Value.symbol name).IsPlainDatum :=
  match h with | .datum h => h

theorem Arises.mem_builtins {name : String} {operation : Operation}
    (h : (Value.procedure (.builtin name operation)).Arises) :
    (name, operation) ∈ Operation.builtins := by
  cases h with
  | builtin known => exact known
  | datum h => cases h

theorem isWrittenName_of_isPlainDatum {name : String} (h : (Value.symbol name).IsPlainDatum)
    (hname : IsBindable name) : IsWrittenName name := by
  cases h with
  | symbol word not_literal => exact ⟨word, not_literal, hname⟩

/-- What arises is printed on one line. -/
theorem Arises.isOneLine_text {v : Value} (h : v.Arises) {s : Store}
    (hparams : ∀ c closure, s.closure? c = some closure →
      ∀ param ∈ closure.params, IsWrittenName param) : IsOneLine (s.text v) := by
  cases h with
  | number => exact isOneLine_of_isWord (Number.isWord_text _)
  | @boolean b => cases b <;> simp [Store.text, IsOneLine]
  | @builtin _ operation known =>
    have hname := (Operation.isWrittenName_of_mem_builtins known).word
    exact s.isOneLine_procedureText_builtin (isOneLine_of_isWord hname) operation
  | @closure c =>
    exact Store.isOneLine_procedureText_closure fun closure hc param hparam =>
      isOneLine_of_isWord (hparams c closure hc param hparam).word
  | datum h => exact Store.isOneLine_text_of_isDatum h

end Value

namespace Session

/-- The discipline of sessions. -/
def discipline : Discipline where
  value := Value.Arises
  code := Value.IsPlainDatum
  name := IsWrittenName
  shown := IsOneLine
  number _ := .number
  boolean _ := .boolean
  closure _ := .closure
  gather h _ := absurd h.mem_builtins (by simp [Operation.builtins])
  value_of_code := .datum
  code_of_mem h hmem := Value.isDatum_list_iff.1 h _ hmem
  name_of_code := Value.isWrittenName_of_isPlainDatum
  shown_of_code h := Store.isOneLine_text_of_isDatum (s := .empty) h
  shown_builtin h := isOneLine_of_isWord (Operation.isWrittenName_of_mem_builtins h.mem_builtins).word
  shown_text hparams h := h.isOneLine_text hparams

/-- A store in which everything comes from a session. -/
abbrev Keeps (s : Store) : Prop := discipline.Keeps .empty s

theorem keeps_empty : Keeps .empty where
  value h := by simp [Store.own?, Store.scope?, Store.empty] at h
  name h := .inl h
  params h := by simp [Store.closure?, Store.empty] at h
  body h := by simp [Store.closure?, Store.empty] at h

theorem keeps_start : Keeps start.store := by
  refine keeps_empty.addScope none (fun name hname => ?_) fun name v hv => ?_
  · obtain ⟨v, hv⟩ := Option.isSome_iff_exists.1 hname
    obtain ⟨operation, hmem, -⟩ := Operation.get?_rootBindings_iff.1 hv
    exact Operation.isWrittenName_of_mem_builtins hmem
  · obtain ⟨operation, hmem, rfl⟩ := Operation.get?_rootBindings_iff.1 hv
    exact .builtin hmem

/-- What a text that cannot be read shows is one of its tokens. -/
theorem allows_unreadable {text : String} {cause : ReadError}
    (h : Value.ofText text = .error cause) : discipline.Allows (.error (.unreadable cause)) := by
  cases cause with
  | unexpectedEnd | unexpectedClosing => exact nofun
  | trailing other =>
    refine List.forall_mem_singleton.2 ?_
    obtain ⟨-, k, -, -, -, hother⟩ := Value.goesOn_of_trailing h
    obtain ⟨token, htoken, rfl⟩ := Option.map_eq_some_iff.1 hother
    cases token with
    | opening | closing => simp [Token.text, discipline, IsOneLine]
    | atom word => exact isOneLine_of_isWord (isWord_of_mem_scan (List.mem_of_getElem? htoken))

/-- Running a text keeps the discipline of sessions. -/
theorem keeps_run {s t : Store} (hs : Keeps s) {depth : Nat} {root : ScopeId} {text : String}
    {r : Except EvalError Value} (h : Eval.run depth root text s = .ended r t) :
    Keeps t ∧ discipline.Allows r := by
  rcases Eval.ended_of_run h with ⟨e, htext, hends⟩ | ⟨cause, htext, rfl, rfl⟩
  · exact hs.of_ended (Value.isPlainDatum_of_ofText htext) hends
  · exact ⟨hs, allows_unreadable htext⟩

/-- What a new session becomes by running texts to their ends, be they values or errors. -/
inductive Reached : Session → Prop
  | start : Reached .start
  | run {session depth text r t} (before : Reached session)
      (ends : session.run depth text = .ended r t) : Reached { session with store := t }

theorem Reached.keeps {session : Session} (h : session.Reached) : Keeps session.store := by
  induction h with
  | start => exact keeps_start
  | run _ ends ih => exact (keeps_run ih ends).1

end Session

/-- What holds of every value that a session binds or answers: it is computed or a datum, a list is
pure and equal to itself, and data without infinite numbers read back from their text. -/
structure Store.Genuine (s : Store) (v : Value) : Prop where
  kind : (∃ x, v = .number x) ∨ (∃ b, v = .boolean b) ∨ (∃ p, v = .procedure p) ∨ v.IsPlainDatum
  pure : ∀ items, v = .list items → (∀ b, .boolean b ∉ v) ∧ (∀ p, .procedure p ∉ v) ∧
    ∀ x, .number x ∈ v → x.isNaN = false
  equals_self : ∀ items, v = .list items → v.equals v = true
  reads_back : ((∃ items, v = .list items) ∨ ∃ name, v = .symbol name) →
    (∀ x, .number x ∈ v → x.isInf = false) → Value.ofText (s.text v) = .ok v

theorem Value.Arises.genuine {v : Value} (h : v.Arises) (s : Store) : s.Genuine v where
  kind := by
    cases h with
    | number => exact .inl ⟨_, rfl⟩
    | boolean => exact .inr (.inl ⟨_, rfl⟩)
    | builtin | closure => exact .inr (.inr (.inl ⟨_, rfl⟩))
    | datum h => exact .inr (.inr (.inr h))
  pure := by
    rintro items rfl
    exact ⟨h.of_list.boolean_not_mem, h.of_list.procedure_not_mem, fun x => h.of_list.isNaN_of_mem⟩
  equals_self := by
    rintro items rfl
    exact h.of_list.equals_self
  reads_back := by
    rintro (⟨items, rfl⟩ | ⟨name, rfl⟩) hfinite
    · exact Value.ofText_text_of_readable s (h.of_list.readable hfinite)
    · exact Value.ofText_text_of_readable s (h.of_symbol.readable hfinite)

namespace Session

/-- Whatever texts a session has run, all that it binds in any of its scopes, reachable or not, and
all that it answers to a further text is computed or a datum, and all bodies of its closures are
data. -/
theorem genuine_of_reached {session : Session} (h : session.Reached) :
    (∀ a name v, session.store.own? a name = some v → session.store.Genuine v) ∧
      (∀ c closure, session.store.closure? c = some closure → closure.body.IsPlainDatum) ∧
      ∀ depth text v t, session.run depth text = .ok v t → t.Genuine v := by
  refine ⟨fun a name v hown => ?_, fun c closure hc => h.keeps.body hc, fun depth text v t hrun => ?_⟩
  · exact (h.keeps.value hown).genuine _
  · exact Value.Arises.genuine (keeps_run h.keeps (r := .ok v) hrun).2 t

/-- A text binds a list that a closure answers, and fails afterwards. -/
theorem genuine_of_reached_failure :
    ∃ session : Session, session.Reached ∧
      session.store.own? ⟨0⟩ "g" = some (.list [.symbol "x", .number 1]) ∧
      (session.store.closure? ⟨0⟩).map Closure.body =
        some (.list [.symbol "quote", .list [.symbol "x", .number 1]]) ∧
      (∀ a name v, session.store.own? a name = some v → session.store.Genuine v) ∧
      (∀ c closure, session.store.closure? c = some closure → closure.body.IsPlainDatum) ∧
      ∀ depth text v t, session.run depth text = .ok v t → t.Genuine v := by
  have hshown : ((start.run 10 "(+ (define g ((lambda (x) (quote (x 1))) 2)) 3)").answer?.map
      fun shown => (shown.2.own? ⟨0⟩ "g", (shown.2.closure? ⟨0⟩).map Closure.body)) =
        some (some (.list [.symbol "x", .number 1]),
          some (.list [.symbol "quote", .list [.symbol "x", .number 1]])) := by decide +kernel
  obtain ⟨⟨answer, s⟩, hanswer, heq⟩ := Option.map_eq_some_iff.1 hshown
  obtain ⟨hbound, hbody⟩ := Prod.mk.inj heq
  obtain ⟨r, hends⟩ := Outcome.exists_ended_of_answer? hanswer
  have hreached : Reached { start with store := s } := .run .start hends
  exact ⟨_, hreached, hbound, hbody, genuine_of_reached hreached⟩

end Session
end ScopedLisp
