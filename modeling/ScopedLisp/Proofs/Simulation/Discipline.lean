import ScopedLisp.Proofs.Evaluation.Soundness
import ScopedLisp.Proofs.Scopes.WellFormed

/-! # Disciplines

A discipline says which values may be bound or answered, which code may run, which names may get
bound and which texts an error may show. It asks for little: parts of code are code, code may be a
value, and names that code mentions may get bound if they can be bound at all. A store keeps a
discipline if all of its bindings and closures do, names that were bound beforehand apart. Evaluation
of code that may run keeps the discipline, and so does what it ends with. -/

namespace ScopedLisp

/-- What may be bound, run and shown. -/
structure Discipline where
  value : Value → Prop
  code : Value → Prop
  name : String → Prop
  shown : String → Prop
  number : ∀ x, value (.number x)
  boolean : ∀ b, value (.boolean b)
  closure : ∀ c, value (.procedure (.closure c))
  gather : ∀ {name args}, value (.procedure (.builtin name .gather)) →
    (∀ arg ∈ args, value arg) → value (.list args)
  value_of_code : ∀ {e}, code e → value e
  code_of_mem : ∀ {items e}, code (.list items) → e ∈ items → code e
  name_of_code : ∀ {key}, code (.symbol key) → IsBindable key → name key
  shown_of_code : ∀ {key}, code (.symbol key) → shown key
  shown_builtin : ∀ {key operation}, value (.procedure (.builtin key operation)) → shown key
  shown_text : ∀ {s : Store} {v}, (∀ c closure, s.closure? c = some closure →
    ∀ param ∈ closure.params, name param) → value v → shown (s.text v)

namespace Discipline
variable {D : Discipline} {base s t : Store}

/-- Bindings and closures as a discipline allows them. The names that `base` binds may be any. -/
structure Keeps (D : Discipline) (base s : Store) : Prop where
  value : ∀ {a name v}, s.own? a name = some v → D.value v
  name : ∀ {a name}, (s.own? a name).isSome → (base.own? a name).isSome ∨ D.name name
  params : ∀ {c closure}, s.closure? c = some closure → ∀ param ∈ closure.params, D.name param
  body : ∀ {c closure}, s.closure? c = some closure → D.code closure.body

/-- A result as a discipline allows it. -/
def Allows (D : Discipline) : Except EvalError Value → Prop
  | .ok v => D.value v
  | .error cause => ∀ text ∈ cause.texts, D.shown text

namespace Keeps

theorem define (h : D.Keeps base s) (a : ScopeId) {name : String} (hname : D.name name)
    {v : Value} (hv : D.value v) : D.Keeps base (s.define a name v) where
  value := Store.forall_own?_define h.value hv
  name {b key} hown := by
    rw [Store.own?_define] at hown
    split at hown
    · next hkey => exact .inr (hkey.2.1 ▸ hname)
    · exact h.name hown
  params hc := h.params hc
  body hc := h.body hc

theorem addScope (h : D.Keeps base s) (parent : Option ScopeId) {own : Bindings Value}
    (hnames : ∀ name, own.contains name → D.name name)
    (hvalues : ∀ name v, own.get? name = some v → D.value v) :
    D.Keeps base (s.addScope parent own).2 where
  value := Store.forall_own?_addScope h.value hvalues
  name {b key} hown := by
    rw [Store.own?_addScope] at hown
    split at hown
    · exact .inr (hnames key hown)
    · exact h.name hown
  params hc := h.params hc
  body hc := h.body hc

theorem addClosure (h : D.Keeps base s) {closure : Closure}
    (hparams : ∀ param ∈ closure.params, D.name param) (hbody : D.code closure.body) :
    D.Keeps base (s.addClosure closure).2 where
  value hown := h.value hown
  name hown := h.name hown
  params := Store.forall_closure?_addClosure h.params hparams
  body := Store.forall_closure?_addClosure h.body hbody

theorem set? (h : D.Keeps base s) {a : ScopeId} {name : String} (hname : D.name name) {v : Value}
    (hv : D.value v) (hset : s.set? a name v = some t) : D.Keeps base t := by
  obtain ⟨owner, -, rfl⟩ := Option.map_eq_some_iff.1 hset
  exact h.define owner hname hv

theorem value_of_get? (h : D.Keeps base s) {a : ScopeId} {name : String} {v : Value}
    (hget : s.get? a name = some v) : D.value v := by
  obtain ⟨b, -, hown⟩ := List.exists_of_findSome?_eq_some hget
  exact h.value hown

/-- A scope for the arguments of a closure binds its parameters only. -/
theorem addScope_call (h : D.Keeps base s) {c : ClosureId} {closure : Closure}
    (hc : s.closure? c = some closure) {args : List Value} (hargs : ∀ arg ∈ args, D.value arg) :
    D.Keeps base
      (s.addScope (some closure.scope) (.ofList (closure.params.zip args))).2 := by
  refine h.addScope _ (fun name hname => ?_) fun name v hv => ?_
  · exact h.params hc name (Bindings.mem_of_contains_ofList_zip hname)
  · exact hargs v (Bindings.mem_of_get?_ofList_zip hv).2

end Keeps

/-- One store on both sides that keeps a discipline. -/
def correspondence (D : Discipline) (base : Store) :
    Correspondence {s : Store // D.Keeps base s} where
  left := Subtype.val
  right := Subtype.val
  value _ v v' := v = v' ∧ D.value v
  code _ e a e' b := e = e' ∧ a = b ∧ D.code e
  shown _ := D.shown

/-- Keeping a discipline is a simulation of each store by itself. -/
def simulation (D : Discipline) (base : Store) : Simulation {s : Store // D.Keeps base s} where
  toCorrespondence := D.correspondence base
  value_mono _ := id
  code_mono _ := id
  alike := by
    rintro w v _ ⟨rfl, -⟩
    exact .refl fun _ _ => rfl
  code_value h := ⟨h.1, D.value_of_code h.2.2⟩
  code_items := by
    rintro w items a _ _ ⟨heq, rfl, he⟩
    obtain rfl := Value.list.inj heq
    exact List.forall₂_same.2 fun item hitem => ⟨rfl, rfl, D.code_of_mem he hitem⟩
  number x := ⟨rfl, D.number x⟩
  boolean b := ⟨rfl, D.boolean b⟩
  shown_text {w v _} h := D.shown_text (fun _ _ hc => w.2.params hc) h.2
  shown_name h := D.shown_of_code h.2.2
  shown_builtin h := D.shown_builtin h.2
  gather := by
    rintro w name args args' ⟨-, h⟩ hargs
    obtain ⟨rfl, hvalues⟩ := forall₂_eq_and_iff.1 hargs
    exact ⟨rfl, D.gather h hvalues⟩
  lookup := by
    rintro w name a _ ⟨-, rfl, -⟩ -
    exact rel_eq_and_self fun _ => w.2.value_of_get?
  define := by
    rintro w name expr a _ _ v _ ⟨-, rfl, he⟩ hbindable ⟨rfl, hv⟩
    have hname := D.name_of_code (D.code_of_mem he (by simp)) hbindable
    exact ⟨⟨_, w.2.define a hname hv⟩, Store.le_define .., rfl, rfl, trivial⟩
  assign := by
    rintro w name expr a _ _ v _ ⟨-, rfl, he⟩ hbindable ⟨rfl, hv⟩
    have hname := D.name_of_code (D.code_of_mem he (by simp)) hbindable
    change Option.Rel _ (w.1.set? a name v) (w.1.set? a name v)
    cases h : w.1.set? a name v with
    | some t => exact .some ⟨⟨t, w.2.set? hname hv h⟩, Store.le_of_set? h, rfl, rfl, trivial⟩
    | none => exact .none
  child := by
    rintro w e a _ _ own _ ⟨rfl, rfl, he⟩ hown hnames
    obtain ⟨rfl, hvalues⟩ := hown.eq
    have hkeeps := w.2.addScope (some a)
      (fun name hname => D.name_of_code (hnames name hname).2.2.2 (hnames name hname).1) hvalues
    exact ⟨⟨_, hkeeps⟩, Store.le_addScope .., rfl, rfl, rfl, rfl, he⟩
  lambda := by
    rintro w targets body a targets' body' _ params ⟨heq, rfl, he⟩ - hnames
    obtain ⟨rfl, rfl⟩ : targets = targets' ∧ body = body' := by simpa using heq
    have hkeeps : D.Keeps base (w.1.addClosure ⟨params, body, a⟩).2 := w.2.addClosure
      (fun param hparam => D.name_of_code (hnames param hparam).2.2.2 (hnames param hparam).1)
      (D.code_of_mem he (by simp))
    exact ⟨⟨_, hkeeps⟩, Store.le_addClosure .., rfl, rfl, rfl, D.closure _⟩
  call := by
    rintro w c _ C E ⟨heq, -⟩ hC hE args args' hargs -
    obtain rfl : c = _ := by simpa using heq
    obtain rfl := Option.some.inj (hC ▸ hE)
    obtain ⟨rfl, hvalues⟩ := forall₂_eq_and_iff.1 hargs
    have hkeeps := w.2.addScope_call hC hvalues
    exact ⟨⟨_, hkeeps⟩, Store.le_addScope .., rfl, rfl, rfl, rfl, w.2.body hC⟩

/-- Evaluation of code that may run keeps a discipline, whether it ends with a value or with an
error. -/
theorem Keeps.of_ended (h : D.Keeps base s) {e : Value} (he : D.code e) {depth : Nat} {a : ScopeId}
    {r : Except EvalError Value} (hends : Evaluator.within depth e a s = .ended r t) :
    D.Keeps base t ∧ D.Allows r := by
  have hagree : (D.correspondence base).OutcomesAgree ⟨s, h⟩ _ (Evaluator.within depth e a s)
      (Evaluator.within depth e a s) :=
    Simulation.respects_within (S := D.simulation base) depth ⟨rfl, rfl, he⟩
  rw [hends] at hagree
  cases r with
  | ok v =>
    obtain ⟨⟨_, hkeeps⟩, -, rfl, -, -, hv⟩ := hagree
    exact ⟨hkeeps, hv⟩
  | error cause =>
    obtain ⟨-, ⟨_, hkeeps⟩, -, rfl, -, hshown⟩ := hagree
    exact ⟨hkeeps, hshown⟩

end Discipline
end ScopedLisp
