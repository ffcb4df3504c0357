import Mathlib.Data.List.ReduceOption
import ScopedLisp.Proofs.Shell.Lines
import ScopedLisp.Shell.Basic

/-! # What a shell shows

The shell is a session that is fed with lines. Which lines it takes and which of them it runs can be
seen from the input alone; what it answers to those is what a session answers to their texts, blanks
included. -/

namespace ScopedLisp
open Text

/-- What comes of running texts one after the other in a session. -/
def Session.outcomes (depth : Nat) (session : Session) : List String → List (Outcome Value)
  | [] => []
  | text :: rest =>
    let outcome := session.run depth text
    outcome :: (session.after outcome).outcomes depth rest

namespace Shell

/-- The status with which a line ends the shell, if it does. -/
def status? (line : List UInt8) : Option Nat :=
  match decode line with
  | none => some 1
  | some text => if text = quitLine then some 0 else none

/-- Whether a line is text of nothing but blanks. -/
def isBlankLine (line : List UInt8) : Bool :=
  decode line == some ""

/-- The lines that come before the one that ends the shell. -/
def taken (ls : List (List UInt8)) : List (List UInt8) :=
  ls.takeWhile fun line => (status? line).isNone

/-- The texts of the lines that are run, as they were written. -/
def executed (ls : List (List UInt8)) : List String :=
  ((taken ls).filter fun line => !isBlankLine line).filterMap text?

/-- The exit status, which the first line decides that ends the shell. -/
def exitStatus (ls : List (List UInt8)) : Nat :=
  (ls.findSome? status?).getD 0

/-- The answers of a session to the texts of the lines that are run. -/
def answers (depth : Nat) (session : Session) (ls : List (List UInt8)) : List String :=
  (session.outcomes depth (executed ls)).map answer

/-- What is shown behind a prompt for lines with and without an answer. -/
def display : List (Option String) → String
  | [] => ""
  | none :: rest => prompt ++ display rest
  | some answer :: rest => answer ++ "\n" ++ prompt ++ display rest

/-- Whether these are the answers to lines: there is none for a blank line, and the others are given
by a session. -/
structure Answered (depth : Nat) (session : Session) (ls : List (List UInt8))
    (shown : List (Option String)) : Prop where
  blank : shown.map Option.isNone = (taken ls).map isBlankLine
  given : shown.reduceOption = answers depth session ls

variable {depth status : Nat} {session : Session} {line : List UInt8} {rest : List (List UInt8)}

theorem taken_of_stops (h : status? line = some status) : taken (line :: rest) = [] :=
  List.takeWhile_cons_of_neg (by simp [h])

theorem taken_of_goesOn (h : status? line = none) : taken (line :: rest) = line :: taken rest :=
  List.takeWhile_cons_of_pos (by simp [h])

theorem exitStatus_of_stops (h : status? line = some status) :
    exitStatus (line :: rest) = status := by
  rw [exitStatus, List.findSome?_cons, h]
  rfl

theorem exitStatus_of_goesOn (h : status? line = none) :
    exitStatus (line :: rest) = exitStatus rest := by
  rw [exitStatus, List.findSome?_cons, h, exitStatus]

theorem Answered.of_stops (h : status? line = some status) :
    Answered depth session (line :: rest) [] where
  blank := by rw [taken_of_stops h, List.map_nil, List.map_nil]
  given := by
    rw [answers, executed, taken_of_stops h]
    rfl

theorem Answered.of_blank (h : status? line = none) (hblank : isBlankLine line = true)
    {shown : List (Option String)} (hrest : Answered depth session rest shown) :
    Answered depth session (line :: rest) (none :: shown) where
  blank := by
    rw [taken_of_goesOn h, List.map_cons, List.map_cons, hrest.blank, hblank, Option.isNone_none]
  given := by
    rw [List.reduceOption_cons_of_none, hrest.given, answers, answers, executed, executed,
      taken_of_goesOn h, List.filter_cons_of_neg (by simp [hblank])]

theorem Answered.of_text (h : status? line = none) (hblank : isBlankLine line = false)
    {text : String} (htext : text? line = some text) {shown : List (Option String)}
    (hrest : Answered depth (session.after (session.run depth text)) rest shown) :
    Answered depth session (line :: rest) (some (answer (session.run depth text)) :: shown) where
  blank := by
    rw [taken_of_goesOn h, List.map_cons, List.map_cons, hrest.blank, hblank, Option.isNone_some]
  given := by
    rw [List.reduceOption_cons_of_some, hrest.given, answers, answers, executed, executed,
      taken_of_goesOn h, List.filter_cons_of_pos (by simp [hblank]), List.filterMap_cons, htext,
      Session.outcomes, List.map_cons]

/-- All that can happen to a line: it ends the shell, it is passed over because it is blank, or a
session runs its text. -/
theorem react_cases (depth : Nat) (session : Session) (line : List UInt8) :
    (∃ status, status? line = some status ∧ react depth session line = .leave status) ∨
    (status? line = none ∧ isBlankLine line = true ∧
      react depth session line = .proceed prompt session) ∨
    ∃ text, status? line = none ∧ isBlankLine line = false ∧ text? line = some text ∧
      react depth session line = .proceed (answer (session.run depth text) ++ "\n" ++ prompt)
        (session.after (session.run depth text)) := by
  rw [react, status?, isBlankLine, decode_eq_map_trim]
  cases htext : text? line with
  | none => exact .inl ⟨1, rfl, rfl⟩
  | some text =>
    dsimp only [Option.map_some]
    by_cases hquit : trim text = quitLine
    · exact .inl ⟨0, if_pos hquit, if_pos hquit⟩
    · rw [if_neg hquit, if_neg hquit]
      by_cases hblank : trim text = ""
      · exact .inr (.inl ⟨rfl, by simp [hblank], if_pos hblank⟩)
      · rw [if_neg hblank, session.run_trim]
        exact .inr (.inr ⟨text, rfl, by simp [hblank], rfl, rfl⟩)

theorem proceed_of_leave (h : react depth session line = .leave status) :
    proceed depth session (line :: rest) = ⟨"", status⟩ := by
  rw [proceed, h]

theorem proceed_of_proceed {output : String} {next : Session}
    (h : react depth session line = .proceed output next) :
    proceed depth session (line :: rest) =
      ⟨output ++ (proceed depth next rest).output, (proceed depth next rest).status⟩ := by
  rw [proceed, h]

/-- What a shell shows for lines, whatever its session has run before. -/
theorem exists_proceed (depth : Nat) (session : Session) (ls : List (List UInt8)) :
    ∃ shown, Answered depth session ls shown ∧
      proceed depth session ls = ⟨display shown, exitStatus ls⟩ := by
  -- Each answer leaves another session for the lines behind it.
  induction ls generalizing session with
  | nil => exact ⟨[], ⟨rfl, rfl⟩, rfl⟩
  | cons line rest ih =>
    rcases react_cases depth session line with
      ⟨status, hstops, hreact⟩ | ⟨hgoes, hblank, hreact⟩ | ⟨text, hgoes, hblank, htext, hreact⟩
    · refine ⟨[], .of_stops hstops, ?_⟩
      rw [proceed_of_leave hreact, exitStatus_of_stops hstops, display]
    · obtain ⟨shown, hanswered, hrest⟩ := ih session
      refine ⟨none :: shown, hanswered.of_blank hgoes hblank, ?_⟩
      rw [proceed_of_proceed hreact, hrest, exitStatus_of_goesOn hgoes, display]
    · obtain ⟨shown, hanswered, hrest⟩ := ih (session.after (session.run depth text))
      refine ⟨_, hanswered.of_text hgoes hblank htext, ?_⟩
      rw [proceed_of_proceed hreact, hrest, exitStatus_of_goesOn hgoes, display]

theorem react_congr {other : List UInt8} (h : decode line = decode other) (depth : Nat)
    (session : Session) : react depth session line = react depth session other := by
  rw [react, react, h]

/-- A shell goes by the texts of its lines. -/
theorem proceed_congr {ls others : List (List UInt8)} (h : ls.map decode = others.map decode)
    (depth : Nat) (session : Session) :
    proceed depth session ls = proceed depth session others := by
  induction ls generalizing session others with
  | nil => rw [List.map_eq_nil_iff.1 h.symm]
  | cons line rest ih =>
    obtain ⟨other, others, rfl, hline, hrest⟩ := List.map_eq_cons_iff.1 h.symm
    have hreact : react depth session other = react depth session line :=
      react_congr hline depth session
    cases hline : react depth session line with
    | leave => rw [proceed_of_leave hline, proceed_of_leave (hreact.trans hline)]
    | proceed =>
      rw [proceed_of_proceed hline, proceed_of_proceed (hreact.trans hline), ih hrest.symm]

/-- A shell that ends before its lines do shows the same when there are more of them. -/
theorem proceed_append_of_stops {ls : List (List UInt8)} (h : ∃ line ∈ ls, status? line ≠ none)
    (more : List (List UInt8)) (depth : Nat) (session : Session) :
    proceed depth session (ls ++ more) = proceed depth session ls := by
  induction ls generalizing session with
  | nil => simp at h
  | cons line rest ih =>
    rw [List.cons_append]
    rcases react_cases depth session line with
      ⟨status, -, hreact⟩ | ⟨hgoes, -, hreact⟩ | ⟨text, hgoes, -, -, hreact⟩
    · rw [proceed_of_leave hreact, proceed_of_leave hreact]
    · rw [proceed_of_proceed hreact, proceed_of_proceed hreact, ih (by simpa [hgoes] using h)]
    · rw [proceed_of_proceed hreact, proceed_of_proceed hreact, ih (by simpa [hgoes] using h)]

/-- Whether a shell ends before its lines do is seen from the texts of its lines. -/
theorem stops_congr {ls others : List (List UInt8)} (h : ls.map decode = others.map decode)
    (hls : ∃ line ∈ ls, status? line ≠ none) : ∃ line ∈ others, status? line ≠ none := by
  obtain ⟨line, hmem, hstops⟩ := hls
  obtain ⟨other, hother, hdecode⟩ := List.mem_map.1 (h ▸ List.mem_map_of_mem hmem)
  refine ⟨other, hother, ?_⟩
  rwa [status?, hdecode]

/-- What a shell shows for an input goes by the lines of the input as they are meant. -/
theorem exists_run (depth : Nat) (input : List UInt8) :
    ∃ shown, Answered depth .start (inputLines input) shown ∧
      run depth input = ⟨prompt ++ display shown, exitStatus (inputLines input)⟩ := by
  obtain ⟨shown, hanswered, hproceed⟩ := exists_proceed depth .start (inputLines input)
  refine ⟨shown, hanswered, ?_⟩
  rw [run, proceed_congr (map_decode_lines input), hproceed]

/-- A shell shows its prompt for every line that it takes, and before the next prompt the answer that
one session gives to the text of the line, blanks included, unless the line is blank. What follows the
line that ends it does not count. -/
theorem run_shows_answers (depth : Nat) (input : List UInt8) :
    (∃ shown, Answered depth .start (inputLines input) shown ∧
      run depth input = ⟨prompt ++ display shown, exitStatus (inputLines input)⟩) ∧
    ∀ rest, (∃ line ∈ inputLines input, status? line ≠ none) →
      run depth (input ++ newline :: rest) = run depth input := by
  refine ⟨exists_run depth input, fun rest hstops => ?_⟩
  obtain ⟨more, hmore⟩ := map_decode_inputLines_prefix input rest
  obtain ⟨same, behind, hsplit, hsame, -⟩ := List.map_eq_append_iff.1 hmore.symm
  rw [run, run, proceed_congr (map_decode_lines _), proceed_congr (map_decode_lines input), hsplit,
    proceed_append_of_stops (stops_congr hsame.symm hstops), proceed_congr hsame]

/-- Definitions persist, blanks around a text do not count, and what follows `quit` need not be
text. -/
theorem run_shows_answers_of_quit :
    let input := "(define x 1)\n \n x\r\nquit".toUTF8.toList
    executed (inputLines input) = ["(define x 1)", " x"] ∧
      run 10 input = ⟨"λ 1\nλ λ 1\nλ ", 0⟩ ∧
      run 10 (input ++ newline :: [255]) = run 10 input :=
  ⟨by decide +kernel, by decide +kernel, (run_shows_answers 10 _).2 [255] (by decide +kernel)⟩

end Shell
end ScopedLisp
