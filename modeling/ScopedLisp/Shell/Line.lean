import ScopedLisp.Text.Blank

/-! # Lines of input

Input is a sequence of bytes. A newline byte ends a line, and bytes after the last newline make up a
line too, if there are any. A line is decoded on its own, so bytes that are no text spoil only the
line they stand in. -/

namespace ScopedLisp.Shell

/-- The byte that ends a line. -/
def newline : UInt8 := 10

/-- The lines of an input: what stands before the next newline, and the lines behind it. -/
def lines : List UInt8 → List (List UInt8)
  | [] => []
  | byte :: rest =>
    (byte :: rest).takeWhile (· != newline) ::
      lines (((byte :: rest).dropWhile (· != newline)).drop 1)
termination_by bytes => bytes.length
decreasing_by
  rw [List.length_drop, List.length_cons]
  have := (List.dropWhile_sublist (l := byte :: rest) (· != newline)).length_le
  rw [List.length_cons] at this
  omega

/-- The text of a line without the blanks at its ends, if the line is text at all. -/
def decode (line : List UInt8) : Option String :=
  (String.fromUTF8? ⟨line.toArray⟩).map Text.trim

example : lines [10, 65, 10, 66] = [[], [65], [66]] := by decide +kernel

end ScopedLisp.Shell
