import ScopedLisp.Proofs.Reading.Tree

/-! # IsBalanced beginnings

How far reading gets is settled by counting parentheses. From an atom or an opening parenthesis it
consumes the shortest non-empty beginning with as many opening as closing parentheses, and
everything if there is no such beginning. This classifies the texts that are no expression. -/

namespace ScopedLisp

namespace Token

/-- As many parentheses are opened as are closed. -/
def IsBalanced (ts : List Token) : Prop :=
  ts.count .opening = ts.count .closing

/-- The shortest non-empty balanced beginning has this many tokens. -/
structure FirstBalance (ts : List Token) (k : Nat) : Prop where
  pos : 0 < k
  le : k ≤ ts.length
  balanced : IsBalanced (ts.take k)
  least : ∀ j, 0 < j → j < k → ¬ IsBalanced (ts.take j)

theorem FirstBalance.unique {ts : List Token} {k j : Nat} (hk : FirstBalance ts k)
    (hj : FirstBalance ts j) : k = j := by
  rcases Nat.lt_trichotomy k j with hlt | heq | hlt
  · exact absurd hk.balanced (hj.least k hk.pos hlt)
  · exact heq
  · exact absurd hj.balanced (hk.least j hj.pos hlt)

/-- With so many parentheses open before, no closing parenthesis comes without an open one. -/
def StaysOpen : Nat → List Token → Prop
  | _, [] => True
  | depth, .atom _ :: ts => StaysOpen depth ts
  | depth, .opening :: ts => StaysOpen (depth + 1) ts
  | 0, .closing :: _ => False
  | depth + 1, .closing :: ts => StaysOpen depth ts

theorem StaysOpen.count_take_le {depth : Nat} {ts : List Token} (h : StaysOpen depth ts) (j : Nat) :
    (ts.take j).count .closing ≤ (ts.take j).count .opening + depth := by
  fun_induction StaysOpen depth ts generalizing j with
  | case1 => simp
  | case2 depth text ts ih =>
    cases j with
    | zero => simp
    | succ j => simpa using ih h j
  | case3 depth ts ih =>
    cases j with
    | zero => simp
    | succ j =>
      have := ih h j
      simp
      omega
  | case4 => exact absurd h id
  | case5 depth ts ih =>
    cases j with
    | zero => simp
    | succ j =>
      have := ih h j
      simp
      omega

/-- A list that is never closed has no balanced beginning. -/
theorem StaysOpen.not_balanced_take {ts : List Token} (h : StaysOpen 0 ts) (j : Nat) :
    ¬ IsBalanced ((.opening :: ts).take (j + 1)) := by
  have := h.count_take_le j
  simp [IsBalanced]
  omega

/-- An expression may start here: at an atom or an opening parenthesis. -/
def Starts (ts : List Token) : Prop :=
  ts.head? = some .opening ∨ ∃ text, ts.head? = some (.atom text)

/-- The tokens end where an expression should start or go on. -/
def EndsEarly (ts : List Token) : Prop :=
  ts = [] ∨ ts.head? = some .opening ∧ ¬ ∃ k, FirstBalance ts k

/-- A parenthesis is closed where none is open: at the start, or somewhere after the expression. -/
def ClosesEarly (ts : List Token) : Prop :=
  ts.head? = some .closing ∨ Starts ts ∧ ∃ k, FirstBalance ts k ∧ .closing ∈ ts.drop k

/-- The expression is followed by a token with this text, and by no closing parenthesis. -/
def GoesOn (ts : List Token) (text : String) : Prop :=
  Starts ts ∧ ∃ k, FirstBalance ts k ∧ k < ts.length ∧ .closing ∉ ts.drop k ∧
    ts[k]?.map Token.text = some text

end Token

namespace Value
open Token

/-- Inside a list, reading stops behind the token that closes more parentheses than are open, and
goes to the end if there is none. -/
theorem readInside_cases (items : List Value) (around : List (List Value)) (ts : List Token) :
    (∃ v before rest, ts = before ++ .closing :: rest ∧ StaysOpen around.length before ∧
      before.count .closing = before.count .opening + around.length ∧
      readInside items around ts = ⟨.ok v, rest⟩) ∨
    StaysOpen around.length ts ∧ readInside items around ts = ⟨.error .unexpectedEnd, []⟩ := by
  induction ts generalizing items around with
  | nil => exact .inr ⟨trivial, rfl⟩
  | cons token ts ih =>
    cases token with
    | atom text =>
      rcases ih (ofAtom text :: items) around with ⟨v, before, rest, rfl, hopen, hcount, hread⟩ | h
      · exact .inl ⟨v, .atom text :: before, rest, rfl, hopen, by simpa using hcount, hread⟩
      · exact .inr h
    | opening =>
      rcases ih [] (items :: around) with ⟨v, before, rest, rfl, hopen, hcount, hread⟩ | h
      · rw [List.length_cons] at hcount
        exact .inl ⟨v, .opening :: before, rest, rfl, hopen, by simp; omega, hread⟩
      · exact .inr h
    | closing =>
      cases around with
      | nil => exact .inl ⟨.list items.reverse, [], ts, rfl, trivial, rfl, rfl⟩
      | cons outer around =>
        rcases ih (.list items.reverse :: outer) around with
          ⟨v, before, rest, rfl, hopen, hcount, hread⟩ | h
        · exact .inl ⟨v, .closing :: before, rest, rfl, hopen, by simp; omega, hread⟩
        · exact .inr h

/-- Where an expression may start, reading consumes the first balanced beginning, or else all. -/
theorem read_cases {ts : List Token} (starts : Starts ts) :
    (∃ v k, FirstBalance ts k ∧ read ts = ⟨.ok v, ts.drop k⟩) ∨
      ts.head? = some .opening ∧ (¬ ∃ k, FirstBalance ts k) ∧
        read ts = ⟨.error .unexpectedEnd, []⟩ := by
  cases ts with
  | nil => simp [Starts] at starts
  | cons token ts =>
    cases token with
    | atom text =>
      refine .inl ⟨ofAtom text, 1, ⟨by simp, by simp, by simp [IsBalanced], ?_⟩, rfl⟩
      intro j hpos hlt
      omega
    | opening =>
      rcases readInside_cases [] [] ts with
        ⟨v, before, rest, rfl, hopen, hcount, hread⟩ | ⟨hopen, hread⟩
      · have htake : (.opening :: (before ++ .closing :: rest)).take (before.length + 2) =
            .opening :: (before ++ [.closing]) := by
          simp [List.take_length_add_append]
        have hdrop : (.opening :: (before ++ .closing :: rest)).drop (before.length + 2) =
            rest := by
          simp
        refine .inl ⟨v, before.length + 2, ⟨by simp, by simp, ?_, ?_⟩, by rw [hdrop]; exact hread⟩
        · rw [htake]
          simpa [IsBalanced] using hcount.symm
        · rintro (_ | j) hpos hlt
          · omega
          · rw [List.take_succ_cons, List.take_append_of_le_length (by omega)]
            exact hopen.not_balanced_take j
      · refine .inr ⟨rfl, ?_, hread⟩
        rintro ⟨_ | k, hk⟩
        · exact absurd hk.pos (Nat.lt_irrefl 0)
        · exact hopen.not_balanced_take k hk.balanced
    | closing => simp [Starts] at starts

theorem read_of_firstBalance {ts : List Token} (starts : Starts ts) {k : Nat}
    (hk : FirstBalance ts k) : ∃ v, read ts = ⟨.ok v, ts.drop k⟩ := by
  rcases read_cases starts with ⟨v, j, hj, hread⟩ | ⟨-, hnone, -⟩
  · exact ⟨v, hk.unique hj ▸ hread⟩
  · exact absurd ⟨k, hk⟩ hnone

variable {s : String}

theorem ofText_of_endsEarly (h : EndsEarly (Token.ofText s)) :
    ofText s = .error .unexpectedEnd := by
  rcases h with hnil | ⟨hhead, hnone⟩
  · exact @ofText_of_read_error s _ [] (by rw [hnil]; rfl)
  · rcases read_cases (.inl hhead) with ⟨v, k, hk, -⟩ | ⟨-, -, hread⟩
    · exact absurd ⟨k, hk⟩ hnone
    · exact ofText_of_read_error hread

theorem ofText_of_closesEarly (h : ClosesEarly (Token.ofText s)) :
    ofText s = .error .unexpectedClosing := by
  rcases h with hhead | ⟨starts, k, hk, hclosing⟩
  · obtain ⟨rest, hrest⟩ := List.head?_eq_some_iff.1 hhead
    exact @ofText_of_read_error s _ rest (by rw [hrest]; rfl)
  · obtain ⟨v, hread⟩ := read_of_firstBalance starts hk
    rw [ofText_of_read_ok hread]
    cases hdrop : (Token.ofText s).drop k with
    | nil => simp [hdrop] at hclosing
    | cons token rest =>
      rw [hdrop] at hclosing
      simp [finish, hclosing, Except.map]

theorem ofText_of_goesOn {text : String} (h : GoesOn (Token.ofText s) text) :
    ofText s = .error (.trailing text) := by
  obtain ⟨starts, k, hk, hlt, hclosing, htext⟩ := h
  obtain ⟨v, hread⟩ := read_of_firstBalance starts hk
  rw [ofText_of_read_ok hread]
  rw [List.drop_eq_getElem_cons hlt] at hclosing ⊢
  rw [List.getElem?_eq_getElem hlt] at htext
  obtain rfl : ((Token.ofText s)[k]).text = text := by simpa using htext
  simp only [finish, if_neg hclosing, Except.map]

/-- A text fails to be an expression in three ways only, which exclude each other. -/
theorem ofText_cases (s : String) :
    EndsEarly (Token.ofText s) ∨ ClosesEarly (Token.ofText s) ∨
      (∃ text, GoesOn (Token.ofText s) text) ∨ ∃ v, ofText s = .ok v := by
  by_cases starts : Starts (Token.ofText s)
  · rcases read_cases starts with ⟨v, k, hk, hread⟩ | ⟨hhead, hnone, -⟩
    · by_cases hclosing : .closing ∈ (Token.ofText s).drop k
      · exact .inr (.inl (.inr ⟨starts, k, hk, hclosing⟩))
      · rcases Nat.lt_or_eq_of_le hk.le with hlt | heq
        · refine .inr (.inr (.inl ⟨((Token.ofText s)[k]).text, starts, k, hk, hlt, hclosing, ?_⟩))
          simp [hlt]
        · refine .inr (.inr (.inr ⟨v, ?_⟩))
          rw [ofText_eq_ok_iff_read, hread, heq, List.drop_length]
    · exact .inl (.inr ⟨hhead, hnone⟩)
  · cases hts : Token.ofText s with
    | nil => exact .inl (.inl rfl)
    | cons token rest =>
      cases token with
      | closing => exact .inr (.inl (.inl rfl))
      | opening => exact absurd (.inl (by simp [hts])) starts
      | atom text => exact absurd (.inr ⟨text, by simp [hts]⟩) starts

theorem goesOn_of_trailing {text : String} (h : ofText s = .error (.trailing text)) :
    GoesOn (Token.ofText s) text := by
  rcases ofText_cases s with hends | hcloses | ⟨other, hgoes⟩ | ⟨v, hok⟩
  · cases h.symm.trans (ofText_of_endsEarly hends)
  · cases h.symm.trans (ofText_of_closesEarly hcloses)
  · cases h.symm.trans (ofText_of_goesOn hgoes)
    exact hgoes
  · cases h.symm.trans hok

/-- Which failure a text is answered with, read off its tokens. -/
theorem ofText_classified (s : String) :
    (ofText s = .error .unexpectedEnd ↔ EndsEarly (Token.ofText s)) ∧
      (ofText s = .error .unexpectedClosing ↔ ClosesEarly (Token.ofText s)) ∧
      (∀ text, ofText s = .error (.trailing text) ↔ GoesOn (Token.ofText s) text) ∧
      ((∃ v, ofText s = .ok v) ↔ ¬ EndsEarly (Token.ofText s) ∧ ¬ ClosesEarly (Token.ofText s) ∧
        ∀ text, ¬ GoesOn (Token.ofText s) text) := by
  refine ⟨⟨fun h => ?_, ofText_of_endsEarly⟩, ⟨fun h => ?_, ofText_of_closesEarly⟩,
    fun text => ⟨fun h => ?_, ofText_of_goesOn⟩, ?_, ?_⟩
  · rcases ofText_cases s with hends | hcloses | ⟨text, hgoes⟩ | ⟨v, hok⟩
    · exact hends
    · cases h.symm.trans (ofText_of_closesEarly hcloses)
    · cases h.symm.trans (ofText_of_goesOn hgoes)
    · cases h.symm.trans hok
  · rcases ofText_cases s with hends | hcloses | ⟨text, hgoes⟩ | ⟨v, hok⟩
    · cases h.symm.trans (ofText_of_endsEarly hends)
    · exact hcloses
    · cases h.symm.trans (ofText_of_goesOn hgoes)
    · cases h.symm.trans hok
  · exact goesOn_of_trailing h
  · rintro ⟨v, hok⟩
    refine ⟨fun hends => ?_, fun hcloses => ?_, fun text hgoes => ?_⟩
    · cases hok.symm.trans (ofText_of_endsEarly hends)
    · cases hok.symm.trans (ofText_of_closesEarly hcloses)
    · cases hok.symm.trans (ofText_of_goesOn hgoes)
  · rintro ⟨hends, hcloses, hgoes⟩
    rcases ofText_cases s with h | h | ⟨text, h⟩ | hok
    · exact absurd h hends
    · exact absurd h hcloses
    · exact absurd h (hgoes text)
    · exact hok

end Value
end ScopedLisp
