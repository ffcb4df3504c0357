import ScopedLisp.Proofs.Sessions.Provenance
import ScopedLisp.Proofs.Shell.Transcript

/-! # The lines of the output

No line ends inside an answer, whatever its session has run before. So the output of a shell can be
cut into its answers again: there is a line for each of them, which begins with prompts, and what is
left behind the last one are prompts alone. -/

namespace ScopedLisp
open Text

namespace Session
variable {session : Session}

theorem Reached.after (h : session.Reached) (depth : Nat) (text : String) :
    (session.after (session.run depth text)).Reached := by
  cases hrun : session.run depth text with
  | ok v t => exact h.run (r := .ok v) hrun
  | error cause t => exact h.run (r := .error cause) hrun
  | tooDeep => exact h

/-- Whatever a session has run, its answer to a further text is of one line. -/
theorem Reached.isOneLine_answer (h : session.Reached) (depth : Nat) (text : String) :
    IsOneLine (Shell.answer (session.run depth text)) := by
  cases hrun : session.run depth text with
  | ok v t =>
    obtain ⟨ht, hv⟩ := keeps_run h.keeps (r := .ok v) hrun
    exact Value.Arises.isOneLine_text hv fun c closure hc => ht.params hc
  | error cause t =>
    obtain ⟨-, hshown⟩ := keeps_run h.keeps (r := .error cause) hrun
    exact .append (by simp [IsOneLine]) (EvalError.isOneLine_message hshown)
  | tooDeep => simp [Shell.answer, IsOneLine]

theorem Reached.isOneLine_of_mem_outcomes (h : session.Reached) {depth : Nat} {texts : List String}
    {outcome : Outcome Value} (hmem : outcome ∈ session.outcomes depth texts) :
    IsOneLine (Shell.answer outcome) := by
  induction texts generalizing session with
  | nil => cases hmem
  | cons text rest ih =>
    rcases List.mem_cons.1 hmem with rfl | hrest
    · exact h.isOneLine_answer depth text
    · exact ih (h.after depth text) hrest

theorem length_outcomes (session : Session) (depth : Nat) (texts : List String) :
    (session.outcomes depth texts).length = texts.length := by
  induction texts generalizing session with
  | nil => rfl
  | cons text rest ih => rw [outcomes, List.length_cons, List.length_cons, ih]

end Session

namespace Text

theorem IsOneLine.count_newline {s : String} (h : IsOneLine s) : s.toList.count '\n' = 0 :=
  List.count_eq_zero.2 h.1

theorem IsOneLine.splitOn_eq {s : String} (h : IsOneLine s) : s.toList.splitOn '\n' = [s.toList] :=
  List.splitOnP_eq_singleton fun c hc => by
    simpa using fun heq : c = '\n' => h.1 (heq ▸ hc)

/-- A text of one line is cut off at the newline behind it. -/
theorem IsOneLine.splitOn_append {s : String} (h : IsOneLine s) (t : String) :
    (s ++ "\n" ++ t).toList.splitOn '\n' = s.toList :: t.toList.splitOn '\n' := by
  have hlist : (s ++ "\n" ++ t).toList = s.toList ++ '\n' :: t.toList := by simp
  rw [hlist]
  exact (List.splitOnP_append_cons _ _ (by simp)).trans (congrArg (· ++ _) h.splitOn_eq)

end Text

namespace Shell

/-- Prompts on end. -/
def prompts : Nat → String
  | 0 => ""
  | n + 1 => prompts n ++ prompt

theorem prompts_one : prompts 1 = prompt :=
  String.empty_append

theorem isOneLine_prompt : IsOneLine prompt := by
  simp [prompt, IsOneLine]

theorem isOneLine_prompts (n : Nat) : IsOneLine (prompts n) := by
  induction n with
  | zero => simp [prompts, IsOneLine]
  | succ n ih => exact ih.append isOneLine_prompt

variable {shown : List (Option String)}

/-- Of what is shown only the answers end lines. -/
theorem count_newline_display (h : ∀ text ∈ shown.reduceOption, IsOneLine text) :
    (display shown).toList.count '\n' = shown.reduceOption.length := by
  have hprompt := isOneLine_prompt.count_newline
  induction shown with
  | nil => rfl
  | cons first rest ih =>
    cases first with
    | none =>
      rw [List.reduceOption_cons_of_none] at h ⊢
      rw [display, String.toList_append, List.count_append, hprompt, ih h, Nat.zero_add]
    | some text =>
      rw [List.reduceOption_cons_of_some, List.forall_mem_cons] at h
      rw [display, List.reduceOption_cons_of_some]
      simp [String.toList_append, List.count_append, h.1.count_newline, hprompt, ih h.2]

/-- What is shown behind a number of prompts is cut into the answers, with the prompts in front of
each, and the prompts behind the last one. -/
theorem exists_splitOn_display (h : ∀ text ∈ shown.reduceOption, IsOneLine text) (n : Nat) :
    ∃ (framed : List (Nat × String)) (last : Nat), framed.map Prod.snd = shown.reduceOption ∧
      ((prompts (n + 1) ++ display shown).toList.splitOn '\n').map String.ofList =
        framed.map (fun (k, text) => prompts (k + 1) ++ text) ++ [prompts (last + 1)] := by
  -- Blank lines pile up prompts in front of the next answer.
  induction shown generalizing n with
  | nil =>
    refine ⟨[], n, rfl, ?_⟩
    rw [display, String.append_empty, (isOneLine_prompts _).splitOn_eq]
    simp
  | cons first rest ih =>
    cases first with
    | none =>
      obtain ⟨framed, last, hframed, hsplit⟩ := ih h (n + 1)
      refine ⟨framed, last, hframed, ?_⟩
      rwa [display, ← String.append_assoc]
    | some text =>
      rw [List.reduceOption_cons_of_some, List.forall_mem_cons] at h
      obtain ⟨framed, last, hframed, hsplit⟩ := ih h.2 0
      refine ⟨(n, text) :: framed, last, ?_, ?_⟩
      · rw [List.map_cons, hframed, List.reduceOption_cons_of_some]
      · have hline : IsOneLine (prompts (n + 1) ++ text) := (isOneLine_prompts _).append h.1
        have hdisplay : prompts (n + 1) ++ display (some text :: rest) =
            prompts (n + 1) ++ text ++ "\n" ++ (prompts 1 ++ display rest) := by
          rw [display, prompts_one]
          simp only [String.append_assoc]
        rw [hdisplay, hline.splitOn_append, List.map_cons, hsplit]
        simp

/-- No answer of a shell holds the end of a line, so the output has a newline for each line that is
run, and newlines cut it into the answers, each behind one prompt or more. -/
theorem output_framed (depth : Nat) (input : List UInt8) :
    (∀ text ∈ answers depth .start (inputLines input), IsOneLine text) ∧
    (run depth input).output.toList.count '\n' = (executed (inputLines input)).length ∧
    ∃ (framed : List (Nat × String)) (last : Nat),
      framed.map Prod.snd = answers depth .start (inputLines input) ∧
      ((run depth input).output.toList.splitOn '\n').map String.ofList =
        framed.map (fun (k, text) => prompts (k + 1) ++ text) ++ [prompts (last + 1)] := by
  have hanswers : ∀ text ∈ answers depth .start (inputLines input), IsOneLine text :=
    List.forall_mem_map.2 fun outcome => Session.Reached.start.isOneLine_of_mem_outcomes
  obtain ⟨shown, hanswered, hrun⟩ := exists_run depth input
  rw [hrun]
  refine ⟨hanswers, ?_, ?_⟩
  · rw [String.toList_append, List.count_append, isOneLine_prompt.count_newline, Nat.zero_add,
      count_newline_display (hanswered.given ▸ hanswers), hanswered.given, answers,
      List.length_map, Session.length_outcomes]
  · rw [← hanswered.given]
    have hshown := exists_splitOn_display (hanswered.given ▸ hanswers) 0
    rwa [prompts_one] at hshown

end Shell
end ScopedLisp
