import ScopedLisp.Session
import ScopedLisp.Shell.Line

/-! # The shell

The shell shows a prompt, reads a line, shows the answer to it on a line of its own, and starts
again. A blank line has no answer. The shell ends with the input, at the line `quit`, or at a line
that is no text, which alone counts as a failure. -/

namespace ScopedLisp.Shell

/-- What the shell shows when it is ready for a line. -/
def prompt : String := "λ "

/-- The line that ends the shell. -/
def quitLine : String := "quit"

/-- What is shown for the outcome of a line. -/
def answer : Outcome Value → String
  | .ok value s => s.text value
  | .error cause _ => "error: " ++ cause.message
  | .tooDeep => "error: evaluation is nested too deeply"

/-- What the shell does with a line. -/
inductive Reaction where
  /-- Ends with an exit status. -/
  | leave (status : Nat)
  /-- Shows something and goes on. -/
  | proceed (output : String) (session : Session)

/-- Takes in one line. -/
def react (depth : Nat) (session : Session) (line : List UInt8) : Reaction :=
  match decode line with
  | none => .leave 1
  | some text =>
    if text = quitLine then .leave 0
    else if text = "" then .proceed prompt session
    else
      let outcome := session.run depth text
      .proceed (answer outcome ++ "\n" ++ prompt) (session.after outcome)

/-- All that a shell shows, and its exit status. -/
structure Transcript where
  output : String
  status : Nat
deriving DecidableEq, Repr

/-- What a shell shows from one line on. -/
def proceed (depth : Nat) (session : Session) : List (List UInt8) → Transcript
  | [] => { output := "", status := 0 }
  | line :: rest =>
    match react depth session line with
    | .leave status => { output := "", status }
    | .proceed output session =>
      let later := proceed depth session rest
      { later with output := output ++ later.output }

/-- Runs a shell on an input. -/
def run (depth : Nat) (input : List UInt8) : Transcript :=
  let later := proceed depth .start (lines input)
  { later with output := prompt ++ later.output }

end ScopedLisp.Shell
