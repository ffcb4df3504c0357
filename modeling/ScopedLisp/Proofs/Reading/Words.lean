import ScopedLisp.Token

/-! # Words

What the atoms of a text are: its words, that is, non-empty runs of characters that are neither
blank nor a parenthesis. A word is cut off whole where no such character follows it. -/

namespace ScopedLisp

namespace Text

/-- A run of characters of a class stops before these. -/
def Stops (p : Char → Bool) (rest : List Char) : Prop :=
  ∀ c ∈ rest.head?, p c = false

theorem stops_nil (p : Char → Bool) : Stops p [] := by
  simp [Stops]

theorem stops_cons {p : Char → Bool} {c : Char} {rest : List Char} :
    Stops p (c :: rest) ↔ p c = false := by
  simp [Stops]

theorem stops_dropWhile (p : Char → Bool) (cs : List Char) : Stops p (cs.dropWhile p) := by
  intro c hc
  have hhead := List.head?_dropWhile_not p cs
  rwa [Option.mem_def.1 hc] at hhead

theorem Stops.append {p : Char → Bool} {cs ds : List Char} (hcs : Stops p cs) (hds : Stops p ds) :
    Stops p (cs ++ ds) := by
  cases cs with
  | nil => exact hds
  | cons c cs => exact stops_cons.2 (stops_cons.1 hcs)

variable {p : Char → Bool} {run rest : List Char}

theorem takeWhile_run (hrun : ∀ c ∈ run, p c = true) (hrest : Stops p rest) :
    (run ++ rest).takeWhile p = run := by
  rw [List.takeWhile_append_of_pos hrun]
  cases rest with
  | nil => simp
  | cons c rest => simp [stops_cons.1 hrest]

theorem dropWhile_run (hrun : ∀ c ∈ run, p c = true) (hrest : Stops p rest) :
    (run ++ rest).dropWhile p = rest := by
  rw [List.dropWhile_append_of_pos hrun]
  cases rest with
  | nil => rfl
  | cons c rest => simp [stops_cons.1 hrest]

end Text

namespace Token
open Text

/-- A text that can be an atom. -/
def IsWord (text : String) : Prop :=
  text ≠ "" ∧ ∀ c ∈ text.toList, isAtomChar c = true

theorem isAtomChar_iff (c : Char) :
    isAtomChar c = true ↔ c ≠ '(' ∧ c ≠ ')' ∧ isBlank c = false := by
  simp [isAtomChar, and_assoc]

theorem isBlank_of_isAtomChar {c : Char} (h : isAtomChar c = true) : isBlank c = false :=
  ((isAtomChar_iff c).1 h).2.2

theorem stops_blanks {blanks : List Char} (h : ∀ c ∈ blanks, isBlank c = true) :
    Stops isAtomChar blanks :=
  fun c hc => by simp [isAtomChar, h c (List.mem_of_mem_head? hc)]

@[simp] theorem scan_nil : scan [] = [] := by
  rw [scan]

@[simp] theorem scan_opening (rest : List Char) : scan ('(' :: rest) = .opening :: scan rest := by
  rw [scan, if_pos rfl]

@[simp] theorem scan_closing (rest : List Char) : scan (')' :: rest) = .closing :: scan rest := by
  rw [scan, if_neg (by decide), if_pos rfl]

theorem scan_blank {c : Char} (h : isBlank c = true) (rest : List Char) :
    scan (c :: rest) = scan rest := by
  have hopening : c ≠ '(' := by
    rintro rfl
    exact absurd h (by decide)
  have hclosing : c ≠ ')' := by
    rintro rfl
    exact absurd h (by decide)
  rw [scan, if_neg hopening, if_neg hclosing, if_pos h]

/-- A word is one atom where nothing continues it. -/
theorem scan_word {word : String} (h : IsWord word) {rest : List Char}
    (hrest : Stops isAtomChar rest) : scan (word.toList ++ rest) = .atom word :: scan rest := by
  obtain ⟨hne, hchars⟩ := h
  cases hword : word.toList with
  | nil => exact absurd (String.toList_eq_nil_iff.1 hword) hne
  | cons c cs =>
    rw [hword, List.forall_mem_cons] at hchars
    obtain ⟨hc, hcs⟩ := hchars
    obtain ⟨hopening, hclosing, hblank⟩ := (isAtomChar_iff c).1 hc
    rw [List.cons_append, scan, if_neg hopening, if_neg hclosing, if_neg (by simp [hblank]),
      takeWhile_run hcs hrest, dropWhile_run hcs hrest, ← hword, String.ofList_toList]

theorem scan_blanks_append {blanks : List Char} (h : ∀ c ∈ blanks, isBlank c = true)
    (cs : List Char) : scan (blanks ++ cs) = scan cs := by
  induction blanks with
  | nil => rfl
  | cons c blanks ih =>
    rw [List.forall_mem_cons] at h
    rw [List.cons_append, scan_blank h.1, ih h.2]

/-- Blanks end an atom and leave no token. -/
theorem scan_append_blanks {blanks : List Char} (h : ∀ c ∈ blanks, isBlank c = true)
    (cs : List Char) : scan (cs ++ blanks) = scan cs := by
  fun_induction scan cs with
  | case1 => simpa using scan_blanks_append h []
  | case2 rest ih => rw [List.cons_append, scan_opening, ih]
  | case3 rest _ ih => rw [List.cons_append, scan_closing, ih]
  | case4 c rest _ _ hblank ih => rw [List.cons_append, scan_blank hblank, ih]
  | case5 c rest hopening hclosing hblank ih =>
    have hrun : ∀ d ∈ rest.takeWhile isAtomChar, isAtomChar d = true :=
      List.all_eq_true.1 List.all_takeWhile
    have hstops : Stops isAtomChar (rest.dropWhile isAtomChar ++ blanks) :=
      (stops_dropWhile _ _).append (stops_blanks h)
    have hsplit : rest ++ blanks =
        rest.takeWhile isAtomChar ++ (rest.dropWhile isAtomChar ++ blanks) := by
      rw [← List.append_assoc, List.takeWhile_append_dropWhile]
    rw [List.cons_append, scan, if_neg hopening, if_neg hclosing, if_neg hblank, hsplit,
      takeWhile_run hrun hstops, dropWhile_run hrun hstops, ih]

/-- Every atom of a text is a word. -/
theorem isWord_of_mem_scan {cs : List Char} {text : String} (h : .atom text ∈ scan cs) :
    IsWord text := by
  fun_induction scan cs with
  | case1 => cases h
  | case2 rest ih => exact ih (by simpa using h)
  | case3 rest _ ih => exact ih (by simpa using h)
  | case4 c rest _ _ _ ih => exact ih h
  | case5 c rest hopening hclosing hblank ih =>
    rcases List.mem_cons.1 h with htext | hrest
    · cases htext
      have hc : isAtomChar c = true :=
        (isAtomChar_iff c).2 ⟨hopening, hclosing, by simpa using hblank⟩
      refine ⟨by simp, ?_⟩
      rw [String.toList_ofList, List.forall_mem_cons]
      exact ⟨hc, fun d hd => List.all_eq_true.1 List.all_takeWhile d hd⟩
    · exact ih hrest

end Token
end ScopedLisp
