import ScopedLisp.Proofs.Pairing.Inclusion

/-! # Lexical scope

A scope put around code, with a binding that the code does not mention, makes no difference, as long
as the code defines nothing: lookup and assignment pass the scope by. Closures called by the code may
well use the name, but they run in the scopes they were made in. -/

namespace ScopedLisp

/-- A scope with one binding inside another one. -/
def Store.addBinding (s : Store) (a : ScopeId) (name : String) (value : Value) : ScopeId × Store :=
  s.addScope (some a) (.ofList [(name, value)])

section
variable {s : Store} {a : ScopeId} {name : String} {value : Value}

theorem Store.own?_addBinding {key : String}
    (h : ((s.addBinding a name value).2.own? (s.addBinding a name value).1 key).isSome) :
    key = name := by
  rw [addBinding, own?_addScope, if_pos rfl] at h
  obtain ⟨found, hfound⟩ := Option.isSome_iff_exists.1 h
  have hmem := Bindings.mem_of_get?_ofList hfound
  simpa using congrArg Prod.fst (List.mem_singleton.1 hmem)

/-- A store beside one with an additional scope, which is slack. -/
def Pairing.withBinding (hs : s.WellFormed) (a : ScopeId) (name : String) (value : Value) :
    Pairing ⟨[(s.addBinding a name value).1], [name]⟩ :=
  ofIncluded hs (Store.le_addScope ..) (fun _ hb => Store.scope?_addScope_of_has hb ..)
    (fun _ hb => by
      obtain rfl := List.mem_singleton.1 hb
      exact ⟨Store.has_addScope .., Store.not_has_addScope _ _ _⟩)
    fun _ hb key hkey => by
      obtain rfl := List.mem_singleton.1 hb
      exact List.mem_singleton.2 (Store.own?_addBinding hkey)

theorem Pairing.spans_withBinding (hs : s.WellFormed) :
    (withBinding hs a name value).Spans s where
  scope _ hb := ⟨rfl, hb⟩
  closure _ hc := ⟨rfl, hc⟩
  left b hb := ⟨b, rfl, hb⟩
  right b hb :=
    ((Store.has_addScope_iff ..).1 hb).elim (fun hb => .inr ⟨b, rfl, hb⟩)
      fun heq => .inl (List.mem_singleton.2 heq)

/-- Code that neither mentions the name nor defines anything fits in the additional scope. -/
theorem Pairing.fits_withBinding (hs : s.WellFormed) (ha : s.Has a) {e : Value} (he : s.Closed e)
    (hname : Value.symbol name ∉ e) (hdefine : Value.symbol "define" ∉ e) (value : Value) :
    (withBinding hs a name value).Fits ⟨[(s.addBinding a name value).1], [name]⟩ e a e
      (s.addBinding a name value).1 where
  left_has := ha
  right_has := Store.has_addScope ..
  chain := by
    have houter : ∀ b ∈ s.chain a, b ≠ (s.addBinding a name value).1 := by
      rintro _ hb rfl
      exact Store.not_has_addScope _ _ _ (Store.has_of_mem_chain ha hb)
    have hchain : (s.addBinding a name value).2.chain (s.addBinding a name value).1 =
        (s.addBinding a name value).1 :: s.chain a := Store.chain_addScope ha _
    change List.Forall₂ _ (s.chain a) (((s.addBinding a name value).2.chain _).filter _)
    rw [hchain, List.filter_cons_of_neg (by simp), List.filter_eq_self.2 (by simpa using houter)]
    exact Pairs.forall₂_chain_same ha
  alike := .refl fun c hc => ⟨rfl, he c hc⟩
  unaware := .inr ⟨by simpa using hname, hdefine⟩

end

/-- An additional binding around code that does not mention it and defines nothing cannot be observed:
evaluation has the same fate and the same effects as without, and leaves the binding alone. -/
theorem sameFate_addBinding {s : Store} (hs : s.WellFormed) {a : ScopeId} (ha : s.Has a)
    {e : Value} (he : s.Closed e) {name : String} (hname : Value.symbol name ∉ e)
    (hdefine : Value.symbol "define" ∉ e) (value : Value) :
    SameFate (fun r u r' u' =>
        Corresponds ⟨[(s.addBinding a name value).1], [name]⟩ s r u r' u' ∧
          u'.scope? (s.addBinding a name value).1 =
            (s.addBinding a name value).2.scope? (s.addBinding a name value).1)
      e a s e (s.addBinding a name value).1 (s.addBinding a name value).2 := by
  have hfits := Pairing.fits_withBinding hs ha he hname hdefine value
  have hagree (depth : Nat) := Simulation.respects_within (S := Pairing.simulation _) depth hfits
  have hfate := Correspondence.sameFate_of_agree hagree
  refine hfate.mono ?_
  rintro r _ r' _ ⟨W, hW, rfl, rfl, hresults⟩
  refine ⟨⟨W, rfl, rfl, (Pairing.spans_withBinding hs).mono hW, hresults⟩, ?_⟩
  refine hW.right.frame (Store.has_addScope ..) ?_
  rintro ⟨b, hb⟩
  exact ((Pairing.withBinding hs a name value).slack_unpaired List.mem_cons_self).2 b hb

/-- The code calls a closure that assigns the outer one of two bindings of a name. -/
theorem sameFate_addBinding_of_closure :
    ∃ (s : Store) (a : ScopeId) (e : Value), s.WellFormed ∧ s.Has a ∧ s.Closed e ∧
      Value.symbol "y" ∉ e ∧ Value.symbol "define" ∉ e ∧ s.own? a "y" = some (.number 1) ∧
      (s.closure? ⟨0⟩).map Closure.body =
        some (.list [.symbol "set!", .symbol "y", .number 3]) ∧
      e = .list [.procedure (.closure ⟨0⟩)] ∧
      SameFate (fun r u r' u' =>
          Corresponds ⟨[(s.addBinding a "y" (.number 2)).1], ["y"]⟩ s r u r' u' ∧
            u'.scope? (s.addBinding a "y" (.number 2)).1 =
              (s.addBinding a "y" (.number 2)).2.scope? (s.addBinding a "y" (.number 2)).1)
        e a s e (s.addBinding a "y" (.number 2)).1 (s.addBinding a "y" (.number 2)).2 := by
  let bound : Bindings Value := .ofList [("y", .number 1)]
  let setter : Closure := ⟨[], .list [.symbol "set!", .symbol "y", .number 3], ⟨0⟩⟩
  have hbound (name : String) (value : Value) (h : bound.get? name = some value) :
      Store.empty.Closed value := by
    obtain ⟨rfl, rfl⟩ := Prod.mk.inj (List.mem_singleton.1 (Bindings.mem_of_get?_ofList h))
    exact nofun
  have hroot : (Store.empty.addScope none bound).2.WellFormed :=
    Store.WellFormed.empty.addScope nofun hbound
  have hs : ((Store.empty.addScope none bound).2.addClosure setter).2.WellFormed :=
    hroot.addClosure (Store.has_addScope ..) (by simp [setter, Store.Closed])
  have ha : ((Store.empty.addScope none bound).2.addClosure setter).2.Has ⟨0⟩ :=
    (Store.has_addScope Store.empty none bound).mono (Store.le_addClosure ..)
  have hcall : ((Store.empty.addScope none bound).2.addClosure setter).2.Closed
      (.list [.procedure (.closure ⟨0⟩)]) :=
    Store.closed_list_iff.2 (List.forall_mem_singleton.2
      (Store.closed_closure_iff.2 (Store.hasClosure_addClosure ..)))
  exact ⟨_, ⟨0⟩, .list [.procedure (.closure ⟨0⟩)], hs, ha, hcall, by simp, by simp, rfl, rfl, rfl,
    sameFate_addBinding hs ha hcall (by simp) (by simp) (.number 2)⟩

end ScopedLisp
