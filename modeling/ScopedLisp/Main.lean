import ScopedLisp.Shell.Basic

/-! # The command

Runs the shell on standard input and output, line by line. -/

namespace ScopedLisp.Shell

/-- How many evaluations may be open at once. -/
def depthLimit : Nat := 100000

/-- The bytes up to the next newline or the end of input, and whether there were any. -/
partial def readLine (input : IO.FS.Stream) (line : Array UInt8) : IO (Option (List UInt8)) := do
  let bytes ← input.read 1
  match bytes.data[0]? with
  | none => return if line.isEmpty then none else some line.toList
  | some byte => if byte = newline then return some line.toList else readLine input (line.push byte)

/-- Answers lines until the shell is left. -/
partial def loop (input output : IO.FS.Stream) (session : Session) : IO UInt32 := do
  output.flush
  match ← readLine input #[] with
  | none => return 0
  | some line =>
    match react depthLimit session line with
    | .leave status => return status.toUInt32
    | .proceed text session =>
      output.putStr text
      loop input output session

end ScopedLisp.Shell

def main : IO UInt32 := do
  let input ← IO.getStdin
  let output ← IO.getStdout
  output.putStr ScopedLisp.Shell.prompt
  ScopedLisp.Shell.loop input output .start
