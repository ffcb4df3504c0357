import ScopedLisp.Proofs.Reading.Words
import ScopedLisp.Session
import ScopedLisp.Shell.Line

/-! # Lines and the blanks around them

Newlines cut an input into lines, and a carriage return in front of a newline goes with it. The shell
leaves that carriage return in the line and drops all blanks around the line instead, which comes to
the same: a carriage return spoils no text and is a blank, and blanks around a text are nothing to
its reader. -/

namespace ScopedLisp

namespace Text

/-- Trimming takes nothing but blanks from a text. -/
theorem exists_toList_eq_trim (s : String) : ∃ before after : List Char,
    (∀ c ∈ before, isBlank c = true) ∧ (∀ c ∈ after, isBlank c = true) ∧
      s.toList = before ++ ((trim s).toList ++ after) := by
  let rest := s.toList.dropWhile isBlank
  have hrest : rest = (trim s).toList ++ (rest.reverse.takeWhile isBlank).reverse := by
    rw [trim, String.toList_ofList, ← List.reverse_append, List.takeWhile_append_dropWhile,
      List.reverse_reverse]
  refine ⟨s.toList.takeWhile isBlank, (rest.reverse.takeWhile isBlank).reverse,
    List.all_eq_true.1 List.all_takeWhile, fun c hc => ?_, ?_⟩
  · exact List.all_eq_true.1 List.all_takeWhile c (List.mem_reverse.1 hc)
  · rw [← hrest, List.takeWhile_append_dropWhile]

/-- A blank behind a text is trimmed off. -/
theorem trim_append_blank (s : String) {c : Char} (hc : isBlank c = true) :
    trim (s ++ String.singleton c) = trim s := by
  rw [trim, trim, String.toList_append, String.toList_singleton, List.dropWhile_append]
  split
  · next hblank =>
    rw [List.isEmpty_iff.1 hblank]
    simp [hc]
  · rw [List.reverse_append, List.reverse_singleton, List.singleton_append,
      List.dropWhile_cons_of_pos hc]

end Text

open Text

namespace Token

/-- The blanks around a text are nothing to the scanner. -/
theorem ofText_trim (s : String) : ofText (trim s) = ofText s := by
  obtain ⟨before, after, hbefore, hafter, hs⟩ := exists_toList_eq_trim s
  rw [ofText, ofText, hs, scan_blanks_append hbefore, scan_append_blanks hafter]

end Token

/-- A session does not mind the blanks around a text. -/
theorem Session.run_trim (session : Session) (depth : Nat) (text : String) :
    session.run depth (trim text) = session.run depth text := by
  rw [Session.run, Session.run, Eval.run, Eval.run, Value.ofText, Value.ofText, Token.ofText_trim]

namespace Shell

/-- The byte that may stand in front of a newline. -/
def carriageReturn : UInt8 := 13

/-- A line without the carriage return at its end, if there is one. -/
def chomp (line : List UInt8) : List UInt8 :=
  if line.getLast? = some carriageReturn then line.dropLast else line

/-- The lines of an input as they are meant: what newlines end, without the newline and a carriage
return in front of it, and what is left behind the last newline, unless that is nothing. -/
def inputLines (input : List UInt8) : List (List UInt8) :=
  let pieces := input.splitOn newline
  pieces.dropLast.map chomp ++ (pieces.getLast?.filter (· ≠ [])).toList

/-- The text of a line with all its blanks, if the line is text at all. -/
def text? (line : List UInt8) : Option String :=
  String.fromUTF8? ⟨line.toArray⟩

theorem decode_eq_map_trim (line : List UInt8) : decode line = (text? line).map trim := rfl

/-- A carriage return is a character on its own, so nothing in front of it depends on it. -/
theorem isValidUTF8_append_return {bytes : ByteArray} :
    (bytes ++ ⟨#[carriageReturn]⟩).IsValidUTF8 ↔ bytes.IsValidUTF8 := by
  constructor
  · intro h
    let s := String.ofByteArray _ h
    have hlt : bytes.size < (bytes ++ ⟨#[carriageReturn]⟩).size := by
      rw [ByteArray.size_append]
      exact Nat.lt_succ_self _
    have hfirst : (bytes ++ ⟨#[carriageReturn]⟩)[bytes.size].IsUTF8FirstByte := by
      rw [ByteArray.getElem_append_right (Nat.le_refl _)]
      simp only [Nat.sub_self]
      exact (by decide : carriageReturn.IsUTF8FirstByte)
    -- A character begins with the carriage return, so the text can be cut in front of it.
    have hvalid : String.Pos.Raw.IsValid s ⟨bytes.size⟩ :=
      String.Pos.Raw.isValid_iff_isUTF8FirstByte.2 (.inr ⟨hlt, hfirst⟩)
    have hcut := (String.Pos.Raw.isValid_iff_isValidUTF8_extract_zero.1 hvalid).2
    rwa [ByteArray.extract_append_eq_left rfl] at hcut
  · intro h
    exact h.append "\r".isValidUTF8

/-- A carriage return behind a line is one behind its text. -/
theorem text?_append_return (line : List UInt8) :
    text? (line ++ [carriageReturn]) = (text? line).map (· ++ String.singleton '\r') := by
  have hbytes : (⟨(line ++ [carriageReturn]).toArray⟩ : ByteArray) =
      ⟨line.toArray⟩ ++ ⟨#[carriageReturn]⟩ := by
    ext1
    simp
  rw [text?, text?, String.fromUTF8?, String.fromUTF8?, hbytes]
  by_cases h : (⟨line.toArray⟩ : ByteArray).IsValidUTF8
  · rw [dif_pos h, dif_pos (isValidUTF8_append_return.2 h)]
    rfl
  · rw [dif_neg h, dif_neg (mt isValidUTF8_append_return.1 h)]
    rfl

theorem decode_chomp (line : List UInt8) : decode (chomp line) = decode line := by
  rw [chomp]
  split
  · next hlast =>
    obtain ⟨front, rfl⟩ := List.getLast?_eq_some_iff.1 hlast
    rw [List.dropLast_concat, decode_eq_map_trim, decode_eq_map_trim, text?_append_return,
      Option.map_map]
    congr 1
    funext s
    exact (trim_append_blank s (by decide)).symm
  · rfl

/-- What stands behind a newline adds lines. -/
theorem inputLines_append_newline (input rest : List UInt8) :
    inputLines (input ++ newline :: rest) =
      (input.splitOn newline).map chomp ++ inputLines rest := by
  have hrest : rest.splitOn newline ≠ [] := List.splitOn_ne_nil _ _
  have hsplit : (input ++ newline :: rest).splitOn newline =
      input.splitOn newline ++ rest.splitOn newline := List.splitOnP_append_cons _ _ (by simp)
  rw [inputLines, inputLines, hsplit, List.dropLast_append_of_ne_nil hrest, List.map_append,
    List.getLast?_append, Option.or_of_isSome (List.getLast?_isSome.2 hrest), List.append_assoc]

/-- Behind a newline no byte changes what is read of the lines in front of it. -/
theorem map_decode_inputLines_prefix (input rest : List UInt8) :
    (inputLines input).map decode <+: (inputLines (input ++ newline :: rest)).map decode := by
  rw [inputLines_append_newline, inputLines]
  obtain ⟨front, last, hpieces⟩ : ∃ front last, input.splitOn newline = front ++ [last] :=
    ⟨_, _, (List.dropLast_concat_getLast (List.splitOn_ne_nil newline input)).symm⟩
  rw [hpieces, List.dropLast_concat, List.getLast?_concat]
  simp only [List.map_append, List.append_assoc, List.prefix_append_right_inj, List.map_singleton,
    decode_chomp]
  by_cases hlast : last = []
  · simp [hlast, Option.filter]
  · simp [hlast, Option.filter]

/-- The shell reads the lines of an input as they are meant. -/
theorem map_decode_lines (input : List UInt8) :
    (lines input).map decode = (inputLines input).map decode := by
  fun_induction lines input with
  | case1 => rfl
  | case2 byte rest ih =>
    let piece := (byte :: rest).takeWhile (· != newline)
    have hpiece : piece.splitOn newline = [piece] :=
      List.splitOnP_eq_singleton fun b hb => by
        simpa using List.all_eq_true.1 List.all_takeWhile b hb
    have hsplit : piece ++ (byte :: rest).dropWhile (· != newline) = byte :: rest :=
      List.takeWhile_append_dropWhile
    cases hdrop : (byte :: rest).dropWhile (· != newline) with
    | nil =>
      rw [hdrop, List.append_nil] at hsplit
      have hlines : inputLines (byte :: rest) = [byte :: rest] := by
        rw [← hsplit, inputLines, hpiece]
        simp [hsplit]
      rw [hlines, List.drop_nil, lines]
      exact congrArg (fun line => [decode line]) hsplit
    | cons c after =>
      obtain rfl : c = newline := by
        have hhead := List.head?_dropWhile_not (· != newline) (byte :: rest)
        rw [hdrop] at hhead
        simpa using hhead
      have hlines : inputLines (byte :: rest) = chomp piece :: inputLines after := by
        rw [← hsplit, hdrop, inputLines_append_newline, hpiece]
        rfl
      rw [hdrop] at ih
      rw [hlines, List.map_cons, List.map_cons, decode_chomp]
      exact congrArg (decode piece :: ·) ih

end Shell
end ScopedLisp
