import ScopedLisp.Eval.Error
import ScopedLisp.Proofs.Printing.RoundTrip
import ScopedLisp.Proofs.Simulation.Agreement

/-! # Texts of one line

A text is of one line if no line ends inside it. Words and numbers are, so data are printed on one
line; the wording of an error is of one line if the texts are that it shows. -/

namespace ScopedLisp

namespace Text

/-- Whether a text contains neither a newline nor a carriage return. -/
def IsOneLine (s : String) : Prop :=
  '\n' ∉ s.toList ∧ '\r' ∉ s.toList

theorem IsOneLine.append {s t : String} (hs : IsOneLine s) (ht : IsOneLine t) :
    IsOneLine (s ++ t) := by
  rw [IsOneLine, String.toList_append, List.mem_append, List.mem_append, not_or, not_or]
  exact ⟨⟨hs.1, ht.1⟩, hs.2, ht.2⟩

/-- A text between two fixed ones. -/
theorem IsOneLine.between {first middle last : String} (hmiddle : IsOneLine middle)
    (hfirst : IsOneLine first) (hlast : IsOneLine last) : IsOneLine (first ++ middle ++ last) :=
  (hfirst.append hmiddle).append hlast

theorem isOneLine_of_chars {s : String} {p : Char → Bool} (h : ∀ c ∈ s.toList, p c = true)
    (hnewline : p '\n' = false) (hreturn : p '\r' = false) : IsOneLine s :=
  ⟨fun hmem => Bool.false_ne_true (hnewline.symm.trans (h _ hmem)),
    fun hmem => Bool.false_ne_true (hreturn.symm.trans (h _ hmem))⟩

theorem isOneLine_intercalate {items : List String} (h : ∀ item ∈ items, IsOneLine item) :
    IsOneLine (" ".intercalate items) := by
  induction items with
  | nil => simp [IsOneLine]
  | cons item rest ih =>
    rw [List.forall_mem_cons] at h
    cases rest with
    | nil => simpa using h.1
    | cons next rest =>
      rw [String.intercalate_cons_cons]
      exact (h.1.append (by simp [IsOneLine])).append (ih h.2)

theorem isOneLine_of_isWord {s : String} (h : Token.IsWord s) : IsOneLine s :=
  isOneLine_of_chars h.2 (by decide) (by decide)

theorem isOneLine_toString (n : Nat) : IsOneLine (toString n) := by
  refine isOneLine_of_chars (p := Char.isDigit) (fun c hc => ?_) (by decide) (by decide)
  rw [Nat.toString_eq_ofList_toDigits, String.toList_ofList] at hc
  exact Nat.isDigit_of_mem_toDigits (by decide) (by decide) hc

end Text

open Text

namespace Store

/-- A list is printed on one line if its items are. -/
theorem isOneLine_text_list {s : Store} {items : List Value}
    (h : ∀ item ∈ items, IsOneLine (s.text item)) : IsOneLine (s.text (.list items)) := by
  have hitems : IsOneLine (" ".intercalate (items.map s.text)) :=
    isOneLine_intercalate (List.forall_mem_map.2 h)
  rw [text, texts_eq_map]
  exact hitems.between (by simp [IsOneLine]) (by simp [IsOneLine])

/-- Data are printed on one line. -/
theorem isOneLine_text_of_isDatum {s : Store} {accepted : Float → Prop} {v : Value}
    (h : v.IsDatum accepted) : IsOneLine (s.text v) := by
  induction h with
  | number => exact isOneLine_of_isWord (Number.isWord_text _)
  | symbol word _ => exact isOneLine_of_isWord word
  | list _ ih => exact isOneLine_text_list ih

theorem isOneLine_procedureText_builtin (s : Store) {name : String} (h : IsOneLine name)
    (operation : Operation) : IsOneLine (s.procedureText (.builtin name operation)) :=
  h.between (by simp [IsOneLine]) (by simp [IsOneLine])

theorem isOneLine_procedureText_closure {s : Store} {c : ClosureId}
    (h : ∀ closure, s.closure? c = some closure → ∀ param ∈ closure.params, IsOneLine param) :
    IsOneLine (s.procedureText (.closure c)) := by
  have hparams : IsOneLine (" ".intercalate (((s.closure? c).map Closure.params).getD [])) := by
    refine isOneLine_intercalate ?_
    cases hc : s.closure? c with
    | none => simp
    | some closure => exact h closure hc
  exact hparams.between (by simp [IsOneLine]) (by simp [IsOneLine])

end Store

theorem Form.isOneLine_keyword (form : Form) : IsOneLine form.keyword := by
  cases form <;> simp [keyword, IsOneLine]

theorem Arity.isOneLine_message (arity : Arity) : IsOneLine arity.message := by
  have hcount (n : Nat) : IsOneLine (countText n) := by
    rw [countText]
    split
    · simp [IsOneLine]
    · exact (isOneLine_toString n).append (by simp [IsOneLine])
  cases arity with
  | exactly n => exact .append (by simp [IsOneLine]) (hcount n)
  | atLeast n => exact .append (by simp [IsOneLine]) (hcount n)

theorem Malformation.isOneLine_message {fault : Malformation}
    (h : ∀ text ∈ fault.texts, IsOneLine text) : IsOneLine fault.message := by
  cases fault with
  | operandCount expected got =>
    have hexpected : IsOneLine ("expected " ++ toString expected ++ " operand(s), got ") :=
      (isOneLine_toString expected).between (by simp [IsOneLine]) (by simp [IsOneLine])
    exact hexpected.append (isOneLine_toString got)
  | unbindable text | notPair text | boundTwice text | parameterTwice text =>
    have htext : IsOneLine text := h text (by simp [texts])
    exact htext.between (by simp [IsOneLine]) (by simp [IsOneLine])
  | bindingsNotList | parametersNotList => simp [message, IsOneLine]

theorem ReadError.isOneLine_message {cause : ReadError}
    (h : ∀ text, cause = .trailing text → IsOneLine text) : IsOneLine cause.message := by
  cases cause with
  | trailing text => exact (h text rfl).between (by simp [IsOneLine]) (by simp [IsOneLine])
  | unexpectedEnd =>
    change IsOneLine "unexpected end of input"
    simp [IsOneLine]
  | unexpectedClosing =>
    change IsOneLine "unexpected `)`"
    simp [IsOneLine]

/-- The wording of an error is of one line if the texts are that it shows. -/
theorem EvalError.isOneLine_message {cause : EvalError}
    (h : ∀ text ∈ cause.texts, IsOneLine text) : IsOneLine cause.message := by
  cases cause with
  | unreadable cause =>
    have hcause : IsOneLine cause.message :=
      ReadError.isOneLine_message fun text htext => h text (by simp [texts, htext])
    exact .append (by simp [IsOneLine]) hcause
  | unbound text | notCallable text =>
    exact .append (by simp [IsOneLine]) (h text (by simp [texts]))
  | arity procedure expected got =>
    have hprocedure : IsOneLine procedure := h procedure (by simp [texts])
    have hexpected : IsOneLine (procedure ++ " expects " ++ expected.message) :=
      (hprocedure.append (by simp [IsOneLine])).append expected.isOneLine_message
    exact (hexpected.append (by simp [IsOneLine])).append (isOneLine_toString got)
  | notNumber procedure text =>
    have hprocedure : IsOneLine procedure := h procedure (by simp [texts])
    exact (hprocedure.append (by simp [IsOneLine])).append (h text (by simp [texts]))
  | malformed form fault =>
    have hform : IsOneLine ("malformed " ++ form.keyword ++ ": ") :=
      form.isOneLine_keyword.between (by simp [IsOneLine]) (by simp [IsOneLine])
    exact hform.append (Malformation.isOneLine_message h)

end ScopedLisp
