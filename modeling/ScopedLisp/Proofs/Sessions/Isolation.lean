import Mathlib.Logic.Function.Basic
import ScopedLisp.Proofs.Pairing.Simulation
import ScopedLisp.Proofs.Scopes.Reachable

/-! # Isolation of sessions

Several sessions share the store of one process, and their texts are run in any order. No session
notices the others: each gets the answers, and ends up with the bindings, that it would if the others
ran nothing. The store with all sessions is paired with one store for each session, in which only that
session has run; what a session reads and writes has partners in its own pairing only. -/

namespace ScopedLisp

/-- What happens to a process: a session starts, or a text is run in a session. -/
inductive Event (ι : Type) where
  | start (session : ι)
  | run (session : ι) (text : String)

/-- A store, and the root scopes of the sessions that were started there. -/
structure Process (ι : Type) where
  store : Store
  root : ι → Option ScopeId

/-- A process without sessions. -/
def Process.idle {ι : Type} (store : Store) : Process ι := ⟨store, fun _ => none⟩

variable {ι : Type} [DecidableEq ι]

/-- The session that an event belongs to. -/
def Event.session : Event ι → ι
  | start i => i
  | run i _ => i

/-- Whether an event remains if nothing is run in other sessions than one. -/
def Event.concerns (i : ι) : Event ι → Bool
  | start _ => true
  | run j _ => j = i

theorem Event.concerns_session (event : Event ι) : event.concerns event.session = true := by
  cases event <;> simp [concerns, session]

namespace Process

/-- Takes in one event. There is no result if the event is a text for a session that was not started,
or one whose evaluation is given up. -/
def step (depth : Nat) (p : Process ι) :
    Event ι → Option (List (ι × Except EvalError String) × Process ι)
  | .start i => some ([], ⟨p.store.addRoot.2, Function.update p.root i (some p.store.addRoot.1)⟩)
  | .run i text =>
    (p.root i).bind fun root =>
      (Session.run ⟨p.store, root⟩ depth text).answer?.map fun (answer, store) =>
        ([(i, answer)], { p with store })

/-- Takes in a sequence of events, and lists the answers with the sessions they are for. -/
def play (depth : Nat) (p : Process ι) :
    List (Event ι) → Option (List (ι × Except EvalError String) × Process ι)
  | [] => some ([], p)
  | event :: events =>
    (p.step depth event).bind fun (answers, p) =>
      (play depth p events).map fun (later, p) => (answers ++ later, p)

/-- One session in a process has partners for all it can reach in another process. -/
structure Tracks (i : ι) (p q : Process ι) (W : Pairing ∅) : Prop where
  left : W.left = p.store
  right : W.right = q.store
  root : Option.Rel W.scope (p.root i) (q.root i)

end Process

namespace Pairing
variable {W : Pairing ∅} {a b : ScopeId}

/-- Two stores without partners. -/
def nothing (s t : Store) : Pairing ∅ where
  left := s
  right := t
  scope _ _ := False
  closure _ _ := False
  scope_unique := nofun
  closure_unique := nofun
  stand := nofun
  contents := nofun
  parts := nofun
  slack_unpaired := nofun
  slack_own := nofun

/-- Code without closures fits in partners. -/
theorem fits_of_isDatum (hab : W.scope a b) {accepted : Float → Prop} {e : Value}
    (he : e.IsDatum accepted) : W.Fits ∅ e a e b :=
  (W.stand hab).fits ((Store.closed_of_isDatum he .empty).alike_self _)

theorem map_text_eq {r r' : Except EvalError Value}
    (h : ResultsRelated (Value.Alike W.closure) r r') :
    r.map W.left.text = r'.map W.right.text := by
  cases h with
  | ok hv => exact congrArg Except.ok (((simulation ∅).alike hv).text_eq fun _ _ => id)
  | error => rfl

/-- A text is given up in partners on both sides, or has the same answer and leads on to a later
pairing. -/
theorem run_cases (hab : W.scope a b) (depth : Nat) (text : String) :
    Eval.run depth a text W.left = .tooDeep ∧ Eval.run depth b text W.right = .tooDeep ∨
      ∃ r r' W', W ≤ W' ∧ Eval.run depth a text W.left = .ended r W'.left ∧
        Eval.run depth b text W.right = .ended r' W'.right ∧
        r.map W'.left.text = r'.map W'.right.text := by
  have hagree : (correspondence ∅).Agree W (correspondence ∅).value (Eval.run depth a text)
      (Eval.run depth b text) := by
    rw [Eval.run, Eval.run]
    cases htext : Value.ofText text with
    | ok e =>
      exact Simulation.respects_within (S := simulation ∅) depth
        (fits_of_isDatum hab (Value.isDatum_of_ofText htext))
    | error cause => exact Correspondence.agree_fail _ fun _ _ => trivial
  refine hagree.cases.imp_right ?_
  rintro ⟨r, _, r', _, hends, hends', W', hW, rfl, rfl, hresults⟩
  exact ⟨r, r', W', hW, hends, hends', map_text_eq hresults⟩

theorem related_rootBindings :
    Operation.rootBindings.Related (Value.Alike W.closure) Operation.rootBindings := by
  intro name
  cases h : Operation.rootBindings.get? name with
  | none => exact .none
  | some value => exact .some ((Store.closed_rootBindings .empty h).alike_self _)

end Pairing

namespace Process
variable {depth : Nat} {p p' q : Process ι} {i j : ι} {text : String} {W : Pairing ∅}
  {answers : List (ι × Except EvalError String)}

theorem step_run {a : ScopeId} (hroot : p.root i = some a) (depth : Nat) (text : String) :
    p.step depth (.run i text) =
      (Eval.run depth a text p.store).answer?.map fun (answer, store) =>
        ([(i, answer)], { p with store }) := by
  rw [step, hroot, Option.bind_some, Session.run]

/-- A text is run on both sides with the same answer. -/
theorem Tracks.run (h : Tracks i p q W) (hrun : p.step depth (.run i text) = some (answers, p')) :
    ∃ q' W', W ≤ W' ∧ Tracks i p' q' W' ∧ q.step depth (.run i text) = some (answers, q') := by
  obtain ⟨hleft, hright, hroot⟩ := h
  cases ha : p.root i with
  | none => simp [step, ha] at hrun
  | some a =>
    cases hb : q.root i with
    | none => simp [ha, hb] at hroot
    | some b =>
      rw [ha, hb, Option.rel_some_some] at hroot
      rw [step_run ha, ← hleft] at hrun
      rw [step_run hb, ← hright]
      rcases Pairing.run_cases hroot depth text with
        ⟨hends, -⟩ | ⟨r, r', W', hW, hends, hends', hprinted⟩
      · rw [hends] at hrun
        cases hrun
      · rw [hends, Outcome.answer?_ended] at hrun
        obtain ⟨rfl, rfl⟩ := Prod.mk.inj (Option.some.inj hrun)
        refine ⟨{ q with store := W'.right }, W', hW, ⟨rfl, rfl, ?_⟩, ?_⟩
        · rw [ha, hb]
          exact .some (Pairing.Extends.scope hW hroot)
        · rw [hends', Outcome.answer?_ended, hprinted]
          rfl

/-- A session starts on both sides. -/
theorem Tracks.start (h : Tracks i p q W)
    (hstart : p.step depth (.start i) = some (answers, p')) :
    ∃ q' W', W ≤ W' ∧ Tracks i p' q' W' ∧ q.step depth (.start i) = some (answers, q') := by
  obtain ⟨hleft, hright, -⟩ := h
  obtain ⟨rfl, rfl⟩ := Prod.mk.inj (Option.some.inj hstart)
  refine ⟨_, W.addScope .none Pairing.related_rootBindings, Pairing.le_addScope ..,
    ⟨?_, ?_, ?_⟩, rfl⟩
  · rw [← hleft]
    rfl
  · rw [← hright]
    rfl
  · simp only [Function.update_self, ← hleft, ← hright]
    exact .some (.inr ⟨rfl, rfl⟩)

omit [DecidableEq ι] in
/-- What goes on elsewhere makes no difference to a session. -/
theorem Tracks.elsewhere (h : Tracks i p q W) {q' : Process ι} (hp : p.store ≤ p'.store)
    (hq : q.store ≤ q'.store) (hroot : p'.root i = p.root i) (hroot' : q'.root i = q.root i)
    (hleft : ∀ a b, W.scope a b → p'.store.scope? a = p.store.scope? a)
    (hright : ∀ a b, W.scope a b → q'.store.scope? b = q.store.scope? b) :
    ∃ W', Tracks i p' q' W' ∧ W'.scope = W.scope := by
  have hl := h.left
  have hr := h.right
  refine ⟨W.elsewhere (hl ▸ hp) (hr ▸ hq) (hl ▸ hleft) (hr ▸ hright)
    (fun _ hb => absurd hb List.not_mem_nil), ⟨rfl, rfl, ?_⟩, rfl⟩
  rw [hroot, hroot']
  exact h.root

/-- An event of a session happens on both sides with the same answers. -/
theorem Tracks.step {event : Event ι} (h : Tracks event.session p q W)
    (hstep : p.step depth event = some (answers, p')) :
    ∃ q' W', W ≤ W' ∧ Tracks event.session p' q' W' ∧ q.step depth event = some (answers, q') := by
  cases event with
  | start => exact h.start hstep
  | run => exact h.run hstep

/-- An event has answers for its own session only, and leaves the roots of the others. -/
theorem of_step {event : Event ι} (h : p.step depth event = some (answers, p')) :
    (∀ answer ∈ answers, answer.1 = event.session) ∧
      ∀ i ≠ event.session, p'.root i = p.root i := by
  cases event with
  | start j =>
    obtain ⟨rfl, rfl⟩ := Prod.mk.inj (Option.some.inj h)
    exact ⟨nofun, fun i hi => Function.update_of_ne hi _ _⟩
  | run j text =>
    obtain ⟨root, -, h⟩ := Option.bind_eq_some_iff.1 h
    obtain ⟨⟨answer, store⟩, -, h⟩ := Option.map_eq_some_iff.1 h
    obtain ⟨rfl, rfl⟩ := Prod.mk.inj h
    exact ⟨by simp [Event.session], fun _ _ => rfl⟩

/-- What remains of an event for a session that it does not belong to changes no scope. -/
theorem exists_play_of_ne (q : Process ι) (depth : Nat) {event : Event ι} (h : i ≠ event.session) :
    ∃ q', q.play depth ([event].filter (Event.concerns i)) = some ([], q') ∧
      q.store ≤ q'.store ∧ q'.root i = q.root i ∧
      ∀ b, q.store.Has b → q'.store.scope? b = q.store.scope? b := by
  cases event with
  | start j =>
    exact ⟨_, rfl, Store.le_addScope .., Function.update_of_ne h _ _,
      fun b hb => Store.scope?_addScope_of_has hb ..⟩
  | run j text =>
    have hother : Event.concerns i (.run j text) = false := decide_eq_false (Ne.symm h)
    exact ⟨q, by rw [List.filter_cons_of_neg (by simp [hother])]; rfl, le_rfl, rfl, fun _ _ => rfl⟩

theorem play_append (p : Process ι) (depth : Nat) (events events' : List (Event ι)) :
    p.play depth (events ++ events') = (p.play depth events).bind fun (answers, p) =>
      (p.play depth events').map fun (later, p) => (answers ++ later, p) := by
  induction events generalizing p with
  | nil => simp [play]
  | cons event events ih =>
    rw [List.cons_append, play, play]
    cases p.step depth event with
    | none => rfl
    | some result =>
      obtain ⟨answers, p⟩ := result
      simp only [Option.bind_some, ih]
      cases p.play depth events with
      | none => rfl
      | some result =>
        simp only [Option.bind_some, Option.map_some]
        cases result.2.play depth events' with
        | none => rfl
        | some => simp

/-- All sessions of a process, each tracked in a process of its own, with nothing in common. -/
structure Isolated (p : Process ι) (q : ι → Process ι) (W : ι → Pairing ∅) : Prop where
  tracks : ∀ i, Tracks i p (q i) (W i)
  apart : ∀ {i j a b b'}, (W i).scope a b → (W j).scope a b' → i = j

namespace Isolated
variable {q : ι → Process ι} {W : ι → Pairing ∅}

/-- After an event a session is tracked again, and it has new partners only if the event was its
own. -/
theorem tracks_step (h : Isolated p q W) {event : Event ι}
    (hstep : p.step depth event = some (answers, p')) (i : ι) :
    ∃ q' W', Tracks i p' q' W' ∧
      (q i).play depth ([event].filter (Event.concerns i)) =
        some (answers.filter fun answer => answer.1 = i, q') ∧
      ∀ {a b}, W'.scope a b → (∃ b, (W i).scope a b) ∨ i = event.session ∧ ¬ p.store.Has a := by
  obtain ⟨hanswers, hroots⟩ := of_step hstep
  have htracked := h.tracks event.session
  obtain ⟨own, W', hW, htracks, hown⟩ := htracked.step hstep
  have hgo := hW.left
  rw [htracked.left, htracks.left] at hgo
  by_cases hi : i = event.session
  · subst hi
    refine ⟨own, W', htracks, ?_, fun {a b} hab => ?_⟩
    · have hall : (answers.filter fun answer => answer.1 = event.session) = answers :=
        List.filter_eq_self.2 (by simpa using hanswers)
      rw [List.filter_cons_of_pos (by simp [event.concerns_session]), hall]
      simp [play, hown]
    · by_cases ha : p.store.Has a
      · exact .inl (hgo.old ⟨b, hab⟩ ha)
      · exact .inr ⟨rfl, ha⟩
  · obtain ⟨q', hplay, hq, hroot, hframe⟩ := exists_play_of_ne (q i) depth hi
    have hleft (a b : ScopeId) (hab : (W i).scope a b) :
        p'.store.scope? a = p.store.scope? a := by
      refine hgo.frame ?_ fun ⟨b', hab'⟩ => hi (h.apart hab hab')
      exact (h.tracks i).left ▸ ((W i).stand hab).left_has
    have hright (a b : ScopeId) (hab : (W i).scope a b) :
        q'.store.scope? b = (q i).store.scope? b :=
      hframe b ((h.tracks i).right ▸ ((W i).stand hab).right_has)
    obtain ⟨V, hV, hscope⟩ := (h.tracks i).elsewhere hgo.le hq (hroots i hi) hroot hleft hright
    refine ⟨q', V, hV, ?_, fun {a b} hab => .inl ⟨b, hscope ▸ hab⟩⟩
    have hnone : (answers.filter fun answer => answer.1 = i) = [] := by
      refine List.filter_eq_nil_iff.2 fun answer hanswer => ?_
      rw [hanswers answer hanswer]
      simpa using Ne.symm hi
    rw [hplay, hnone]

/-- Sessions stay isolated, and each gets the answers that it gets on its own. -/
theorem step (h : Isolated p q W) {event : Event ι}
    (hstep : p.step depth event = some (answers, p')) :
    ∃ q' W', Isolated p' q' W' ∧ ∀ i, (q i).play depth ([event].filter (Event.concerns i)) =
      some (answers.filter fun answer => answer.1 = i, q' i) := by
  choose q' W' htracks hplay hscope using h.tracks_step hstep
  refine ⟨q', W', ⟨htracks, fun {i j a b b'} hab hab' => ?_⟩, hplay⟩
  have hhas {i a b} (hab : (W i).scope a b) : p.store.Has a :=
    (h.tracks i).left ▸ ((W i).stand hab).left_has
  rcases hscope i hab with ⟨c, hc⟩ | ⟨hi, ha⟩
  · rcases hscope j hab' with ⟨d, hd⟩ | ⟨-, ha⟩
    · exact h.apart hc hd
    · exact absurd (hhas hc) ha
  · rcases hscope j hab' with ⟨d, hd⟩ | ⟨hj, -⟩
    · exact absurd (hhas hd) ha
    · exact hi.trans hj.symm

/-- By induction on the events, from one event to the next. -/
theorem play (h : Isolated p q W) {events : List (Event ι)}
    (hplay : p.play depth events = some (answers, p')) :
    ∃ q' W', Isolated p' q' W' ∧ ∀ i, (q i).play depth (events.filter (Event.concerns i)) =
      some (answers.filter fun answer => answer.1 = i, q' i) := by
  induction events generalizing p q W answers with
  | nil =>
    obtain ⟨rfl, rfl⟩ := Prod.mk.inj (Option.some.inj hplay)
    exact ⟨q, W, h, fun _ => rfl⟩
  | cons event events ih =>
    obtain ⟨⟨first, p₁⟩, hstep, hrest⟩ := Option.bind_eq_some_iff.1 hplay
    obtain ⟨⟨later, p₂⟩, hlater, heq⟩ := Option.map_eq_some_iff.1 hrest
    obtain ⟨rfl, rfl⟩ := Prod.mk.inj heq
    obtain ⟨q₁, W₁, h₁, hfirst⟩ := h.step hstep
    obtain ⟨q₂, W₂, h₂, hsecond⟩ := ih h₁ hlater
    refine ⟨q₂, W₂, h₂, fun i => ?_⟩
    rw [← List.singleton_append, List.filter_append, play_append]
    simp only [hfirst i, Option.bind_some, hsecond i, Option.map_some, List.filter_append]

omit [DecidableEq ι] in
theorem idle (s t : Store) :
    Isolated (Process.idle s) (fun _ : ι => Process.idle t) fun _ => .nothing s t where
  tracks _ := ⟨rfl, rfl, .none⟩
  apart := nofun

end Isolated

/-- No session notices what is run in the others: its answers are those it gets if nothing is run in
the others, and its root ends up with the same names bound to values that are alike. And whatever was
run, a root that is made then binds the builtins and nothing else. -/
theorem play_isolated {depth : Nat} {s : Store} {events : List (Event ι)}
    {answers : List (ι × Except EvalError String)} {p : Process ι}
    (h : (idle s).play depth events = some (answers, p)) (t : Store) (i : ι) :
    (∃ q, (idle t).play depth (events.filter (Event.concerns i)) =
        some (answers.filter fun answer => answer.1 = i, q) ∧
      ∃ W : Pairing ∅, W.left = p.store ∧ W.right = q.store ∧
        Option.Rel W.scope (p.root i) (q.root i)) ∧
      p.store.addRoot.2.scope? p.store.addRoot.1 = some ⟨none, Operation.rootBindings⟩ := by
  obtain ⟨q, W, hisolated, hplay⟩ := (Isolated.idle s t).play h
  refine ⟨⟨q i, hplay i, W i, ?_⟩, ?_⟩
  · exact ⟨(hisolated.tracks i).left, (hisolated.tracks i).right, (hisolated.tracks i).root⟩
  · rw [Store.addRoot, Store.scope?_addScope, if_pos rfl]

/-- One session assigns a builtin and binds a name, and another one runs texts in between. -/
theorem play_isolated_of_assignment :
    ∃ (events : List (Event Bool)) (p : Process Bool),
      events = [.start true, .run true "(set! + (lambda () f))", .start false, .run false "+",
        .run true "(define f +)", .run true "(f)", .run false "f"] ∧
      (idle .empty).play 10 events = some ([(true, .ok "<lambda ()>"), (false, .ok "<builtin +>"),
        (true, .ok "<lambda ()>"), (true, .ok "<lambda ()>"), (false, .error (.unbound "f"))], p) ∧
      (∃ q, (idle .empty).play 10 (events.filter (Event.concerns false)) =
          some ([(false, .ok "<builtin +>"), (false, .error (.unbound "f"))], q) ∧
        ∃ W : Pairing ∅, W.left = p.store ∧ W.right = q.store ∧
          Option.Rel W.scope (p.root false) (q.root false)) ∧
      p.store.addRoot.2.scope? p.store.addRoot.1 = some ⟨none, Operation.rootBindings⟩ := by
  have hanswers : ((idle .empty).play 10 [.start true, .run true "(set! + (lambda () f))",
      .start false, .run false "+", .run true "(define f +)", .run true "(f)",
      .run false "f"]).map Prod.fst = some [(true, .ok "<lambda ()>"), (false, .ok "<builtin +>"),
        (true, .ok "<lambda ()>"), (true, .ok "<lambda ()>"), (false, .error (.unbound "f"))] := by
    decide +kernel
  obtain ⟨⟨_, p⟩, hplay, rfl⟩ := Option.map_eq_some_iff.1 hanswers
  exact ⟨_, p, rfl, hplay, play_isolated hplay .empty false⟩

end Process
end ScopedLisp
