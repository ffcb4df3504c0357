import Mathlib.Data.List.Chain
import ScopedLisp.Proofs.Reading.Words

/-! # Spacing

Two descriptions of the tokens of a text that do not scan it. By the first one they are the pieces
between blanks, once there is a space before and after each parenthesis. By the second one the text
is the spellings of its tokens with blanks between them, and the blanks are left out only next to a
parenthesis: so nothing but blanks is lost, and any such spacing of words and parentheses is read
back. -/

namespace ScopedLisp

namespace Text

/-- A text with a space before and after each parenthesis. -/
def spaced (cs : List Char) : List Char :=
  cs.flatMap fun c => if c = '(' ∨ c = ')' then [' ', c, ' '] else [c]

/-- The pieces that blanks cut a text into. Neighbouring blanks have an empty piece between them, which
does not count. -/
def pieces (cs : List Char) : List (List Char) :=
  (cs.splitOnP isBlank).filter (· ≠ [])

/-- Everything about pieces follows from this: a blank is a cut. -/
theorem pieces_append_blank {c : Char} (hc : isBlank c = true) (cs ds : List Char) :
    pieces (cs ++ c :: ds) = pieces cs ++ pieces ds := by
  rw [pieces, List.splitOnP_append_cons cs ds hc, List.filter_append, pieces, pieces]

@[simp] theorem pieces_nil : pieces [] = [] := by
  simp [pieces, List.splitOnP_nil]

theorem pieces_blank {c : Char} (hc : isBlank c = true) (cs : List Char) :
    pieces (c :: cs) = pieces cs := by
  simpa using pieces_append_blank hc [] cs

/-- A run of other characters is a piece if it ends before a blank or with the text. -/
theorem pieces_run {run : List Char} (hne : run ≠ []) (hrun : ∀ c ∈ run, isBlank c = false)
    {rest : List Char} (hrest : Stops (fun c => !isBlank c) rest) :
    pieces (run ++ rest) = run :: pieces rest := by
  have hpiece : pieces run = [run] := by
    rw [pieces, List.splitOnP_eq_singleton hrun]
    simp [hne]
  cases rest with
  | nil => rw [List.append_nil, hpiece, pieces_nil]
  | cons c rest =>
    have hc : isBlank c = true := by simpa using stops_cons.1 hrest
    rw [pieces_append_blank hc, pieces_blank hc, hpiece, List.singleton_append]

end Text

namespace Token
open Text

/-- The token that a piece spells. -/
def ofPiece (piece : List Char) : Token :=
  if piece = ['('] then opening
  else if piece = [')'] then closing
  else atom (String.ofList piece)

theorem spaced_append (cs ds : List Char) : spaced (cs ++ ds) = spaced cs ++ spaced ds :=
  List.flatMap_append

/-- Spaces are put nowhere in a word. -/
theorem spaced_run {run : List Char} (h : ∀ c ∈ run, isAtomChar c = true) : spaced run = run := by
  induction run with
  | nil => rfl
  | cons c run ih =>
    obtain ⟨hc, hrun⟩ := List.forall_mem_cons.1 h
    obtain ⟨hopening, hclosing, -⟩ := (isAtomChar_iff c).1 hc
    rw [← List.singleton_append, spaced_append, ih hrun]
    simp [spaced, hopening, hclosing]

/-- Where a word ends, there is a blank or the end of the text after the spacing. -/
theorem stops_spaced {cs : List Char} (h : Stops isAtomChar cs) :
    Stops (fun c => !isBlank c) (spaced cs) := by
  cases cs with
  | nil => exact stops_nil _
  | cons c cs =>
    rw [← List.singleton_append, spaced_append]
    by_cases hparen : c = '(' ∨ c = ')'
    · simp only [spaced, List.flatMap_singleton, if_pos hparen]
      exact stops_cons.2 (by decide)
    · have hblank : isBlank c = true := by
        have hc := stops_cons.1 h
        simp_all [isAtomChar]
      simp only [spaced, List.flatMap_singleton, if_neg hparen]
      exact stops_cons.2 (by simp [hblank])

theorem ofPiece_of_isAtomChar {c : Char} (hc : isAtomChar c = true) (cs : List Char) :
    ofPiece (c :: cs) = atom (String.ofList (c :: cs)) := by
  obtain ⟨hopening, hclosing, -⟩ := (isAtomChar_iff c).1 hc
  rw [ofPiece, if_neg, if_neg]
  · exact fun h => hclosing (List.cons.inj h).1
  · exact fun h => hopening (List.cons.inj h).1

/-- A parenthesis with spaces around it is a piece of its own. -/
theorem pieces_spaced_paren {c : Char} (h : c = '(' ∨ c = ')') (cs : List Char) :
    pieces (spaced (c :: cs)) = [c] :: pieces (spaced cs) := by
  have hspace : isBlank ' ' = true := by decide
  have hplain : isBlank c = false := by rcases h with rfl | rfl <;> decide
  have hspaced : spaced (c :: cs) = ' ' :: ([c] ++ ' ' :: spaced cs) := by
    rw [← List.singleton_append, spaced_append]
    simp [spaced, h]
  rw [hspaced, pieces_blank hspace, pieces_run (by simp) (by simpa using hplain), pieces_blank hspace]
  exact stops_cons.2 (by decide)

theorem scan_eq_map_pieces (cs : List Char) : scan cs = (pieces (spaced cs)).map ofPiece := by
  fun_induction scan cs with
  | case1 => rfl
  | case2 rest ih =>
    rw [pieces_spaced_paren (.inl rfl), List.map_cons, ← ih]
    rfl
  | case3 rest _ ih =>
    rw [pieces_spaced_paren (.inr rfl), List.map_cons, ← ih]
    rfl
  | case4 c rest hopening hclosing hblank ih =>
    have hspaced : spaced (c :: rest) = c :: spaced rest := by
      rw [← List.singleton_append, spaced_append]
      simp [spaced, hopening, hclosing]
    rw [hspaced, pieces_blank hblank, ih]
  | case5 c rest hopening hclosing hblank ih =>
    have hc : isAtomChar c = true := (isAtomChar_iff c).2 ⟨hopening, hclosing, by simpa using hblank⟩
    have hrun : ∀ d ∈ c :: rest.takeWhile isAtomChar, isAtomChar d = true :=
      List.forall_mem_cons.2 ⟨hc, List.all_eq_true.1 List.all_takeWhile⟩
    have hsplit : spaced (c :: rest) =
        c :: rest.takeWhile isAtomChar ++ spaced (rest.dropWhile isAtomChar) := by
      rw [← spaced_run hrun, ← spaced_append, List.cons_append, List.takeWhile_append_dropWhile]
    rw [hsplit, pieces_run (by simp) (fun d hd => isBlank_of_isAtomChar (hrun d hd))
      (stops_spaced (stops_dropWhile _ _)), List.map_cons, ofPiece_of_isAtomChar hc, ih]

/-- The tokens of a text are what is left of it between blanks, when each parenthesis has got a space
before and after it. -/
theorem ofText_eq_map_pieces (s : String) :
    ofText s = (pieces (spaced s.toList)).map ofPiece :=
  scan_eq_map_pieces s.toList

/-! ### Tokens spread over a text -/

/-- Whether a token is an atom. -/
def IsAtom (token : Token) : Prop := ∃ text, token = atom text

theorem not_isAtom_opening : ¬ IsAtom opening := nofun

theorem not_isAtom_closing : ¬ IsAtom closing := nofun

theorem isAtom_atom (text : String) : IsAtom (atom text) := ⟨text, rfl⟩

/-- Tokens with what stands before the first one and after each of them: blanks, and at least one of
them between two atoms. -/
structure Spread where
  lead : List Char
  items : List (Token × List Char)
  lead_blank : ∀ c ∈ lead, isBlank c = true
  gap_blank : ∀ item ∈ items, ∀ c ∈ item.2, isBlank c = true
  apart : items.IsChain fun item next => IsAtom item.1 → IsAtom next.1 → item.2 ≠ []

namespace Spread

/-- The tokens of a spread. -/
def tokens (p : Spread) : List Token := p.items.map Prod.fst

/-- The spellings of tokens, with what stands after each. -/
def spell (items : List (Token × List Char)) : List Char :=
  items.flatMap fun (token, gap) => token.text.toList ++ gap

/-- The text that a spread makes. -/
def chars (p : Spread) : List Char := p.lead ++ spell p.items

@[simp] theorem spell_cons (token : Token) (gap : List Char) (items : List (Token × List Char)) :
    spell ((token, gap) :: items) = token.text.toList ++ (gap ++ spell items) := by
  rw [spell, List.flatMap_cons, List.append_assoc, spell]

/-- No tokens and no text. -/
def empty : Spread where
  lead := []
  items := []
  lead_blank := nofun
  gap_blank := nofun
  apart := .nil

/-- One more blank in front. -/
def blank (p : Spread) {c : Char} (hc : isBlank c = true) : Spread :=
  { p with lead := c :: p.lead, lead_blank := List.forall_mem_cons.2 ⟨hc, p.lead_blank⟩ }

/-- One more token in front. -/
def cons (token : Token) (p : Spread)
    (h : IsAtom token → ∀ next ∈ p.tokens.head?, IsAtom next → p.lead ≠ []) : Spread where
  lead := []
  items := (token, p.lead) :: p.items
  lead_blank := nofun
  gap_blank := List.forall_mem_cons.2 ⟨p.lead_blank, p.gap_blank⟩
  apart := by
    refine List.isChain_cons.2 ⟨fun next hnext htoken hatom => h htoken next.1 ?_ hatom, p.apart⟩
    rw [tokens, List.head?_map]
    exact Option.mem_map_of_mem _ hnext

theorem chars_cons (token : Token) (p : Spread)
    (h : IsAtom token → ∀ next ∈ p.tokens.head?, IsAtom next → p.lead ≠ []) :
    (cons token p h).chars = token.text.toList ++ p.chars :=
  spell_cons ..

end Spread

/-- A word begins with one of its characters. -/
theorem IsWord.head {text : String} (h : IsWord text) (rest : List Char) :
    ∃ c ∈ (text.toList ++ rest).head?, isAtomChar c = true := by
  obtain ⟨hne, hchars⟩ := h
  cases hword : text.toList with
  | nil => exact absurd (String.toList_eq_nil_iff.1 hword) hne
  | cons c cs => exact ⟨c, rfl, hchars c (hword ▸ List.mem_cons_self)⟩

/-- A text is spread out by its own tokens. -/
theorem exists_spread (cs : List Char) : ∃ p : Spread, p.tokens = scan cs ∧ p.chars = cs := by
  fun_induction scan cs with
  | case1 => exact ⟨.empty, rfl, rfl⟩
  | case2 rest ih =>
    obtain ⟨p, htokens, hchars⟩ := ih
    refine ⟨p.cons opening fun h => absurd h not_isAtom_opening, congrArg _ htokens, ?_⟩
    rw [Spread.chars_cons, hchars]
    rfl
  | case3 rest _ ih =>
    obtain ⟨p, htokens, hchars⟩ := ih
    refine ⟨p.cons closing fun h => absurd h not_isAtom_closing, congrArg _ htokens, ?_⟩
    rw [Spread.chars_cons, hchars]
    rfl
  | case4 c rest _ _ hblank ih =>
    obtain ⟨p, htokens, hchars⟩ := ih
    exact ⟨p.blank hblank, htokens, congrArg _ hchars⟩
  | case5 c rest hopening hclosing hblank ih =>
    obtain ⟨p, htokens, hchars⟩ := ih
    -- the next atom would go on with the word if no blank stood between them
    have happart : ∀ next ∈ p.tokens.head?, IsAtom next → p.lead ≠ [] := by
      rintro _ hnext ⟨text, rfl⟩ hlead
      have hword : IsWord text := isWord_of_mem_scan (htokens ▸ List.mem_of_mem_head? hnext)
      rw [Spread.tokens, List.head?_map] at hnext
      obtain ⟨⟨_, gap⟩, hitem, rfl⟩ := Option.map_eq_some_iff.1 hnext
      obtain ⟨items, hitems⟩ := List.head?_eq_some_iff.1 hitem
      rw [Spread.chars, hlead, hitems, List.nil_append, Spread.spell_cons] at hchars
      obtain ⟨d, hd, hatom⟩ := hword.head (gap ++ Spread.spell items)
      have hstops := stops_dropWhile isAtomChar rest d (hchars ▸ hd)
      simp [hatom] at hstops
    refine ⟨p.cons (atom _) fun _ => happart, congrArg _ htokens, ?_⟩
    rw [Spread.chars_cons, hchars, text, String.toList_ofList, List.cons_append,
      List.takeWhile_append_dropWhile]

/-- What follows an atom in a spread does not go on with it. -/
theorem Spread.stops_spell {gap : List Char} {items : List (Token × List Char)}
    (hgap : ∀ c ∈ gap, isBlank c = true)
    (happart : ∀ next ∈ items.head?, IsAtom next.1 → gap ≠ []) :
    Stops isAtomChar (gap ++ spell items) := by
  cases gap with
  | cons c gap =>
    rw [List.cons_append, stops_cons]
    simp [isAtomChar, hgap c List.mem_cons_self]
  | nil =>
    cases items with
    | nil => exact stops_nil _
    | cons next items =>
      obtain ⟨token, gap⟩ := next
      cases token with
      | opening | closing => exact stops_cons.2 rfl
      | atom text => exact absurd rfl (happart (atom text, gap) rfl (isAtom_atom text))

theorem Spread.scan_spell {items : List (Token × List Char)}
    (hwords : ∀ text, atom text ∈ items.map Prod.fst → IsWord text)
    (hgaps : ∀ item ∈ items, ∀ c ∈ item.2, isBlank c = true)
    (happart : items.IsChain fun item next => IsAtom item.1 → IsAtom next.1 → item.2 ≠ []) :
    scan (spell items) = items.map Prod.fst := by
  induction items with
  | nil => exact scan_nil
  | cons item items ih =>
    obtain ⟨token, gap⟩ := item
    obtain ⟨hgap, hgaps⟩ := List.forall_mem_cons.1 hgaps
    obtain ⟨hnext, happart⟩ := List.isChain_cons.1 happart
    have hrest : scan (gap ++ spell items) = items.map Prod.fst := by
      rw [scan_blanks_append hgap]
      exact ih (fun text htext => hwords text (List.mem_cons_of_mem _ htext)) hgaps happart
    rw [spell_cons, List.map_cons, ← hrest]
    cases token with
    | opening => exact scan_opening _
    | closing => exact scan_closing _
    | atom text =>
      refine scan_word (hwords text List.mem_cons_self) (stops_spell hgap ?_)
      exact fun next hmem => hnext next hmem (isAtom_atom text)

/-- A spread of words and parentheses is read back. -/
theorem Spread.scan_chars (p : Spread) (hwords : ∀ text, atom text ∈ p.tokens → IsWord text) :
    scan p.chars = p.tokens := by
  rw [chars, scan_blanks_append p.lead_blank]
  exact scan_spell hwords p.gap_blank p.apart

/-- The characters of a word or a parenthesis are no blanks. -/
theorem filter_text {token : Token} (h : ∀ text, token = atom text → IsWord text) :
    token.text.toList.filter (fun c => !isBlank c) = token.text.toList := by
  rw [List.filter_eq_self]
  cases token with
  | opening | closing => exact List.forall_mem_singleton.2 rfl
  | atom text => exact fun c hc => by simp [isBlank_of_isAtomChar ((h text rfl).2 c hc)]

theorem filter_blanks {cs : List Char} (h : ∀ c ∈ cs, isBlank c = true) :
    cs.filter (fun c => !isBlank c) = [] :=
  List.filter_eq_nil_iff.2 fun c hc => by simp [h c hc]

/-- Blanks are all that a spread has beside its tokens. -/
theorem Spread.filter_chars (p : Spread) (hwords : ∀ text, atom text ∈ p.tokens → IsWord text) :
    p.chars.filter (fun c => !isBlank c) = p.tokens.flatMap fun token => token.text.toList := by
  rw [chars, List.filter_append, filter_blanks p.lead_blank, List.nil_append, spell,
    List.filter_flatMap, tokens, List.flatMap_map]
  refine List.flatMap_congr fun item hitem => ?_
  rw [List.filter_append, filter_blanks (p.gap_blank item hitem), List.append_nil]
  refine filter_text ?_
  rintro text htext
  exact hwords text (List.mem_map.2 ⟨item, hitem, htext⟩)

theorem Spread.spell_append (items items' : List (Token × List Char)) :
    spell (items ++ items') = spell items ++ spell items' :=
  List.flatMap_append

/-- Before an atom a spread ends with a blank or a parenthesis, if there is anything at all. -/
theorem Spread.stops_reverse_chars (p : Spread)
    (h : ∀ item ∈ p.items.getLast?, IsAtom item.1 → item.2 ≠ []) :
    Stops isAtomChar p.chars.reverse := by
  rcases List.eq_nil_or_concat p.items with hitems | ⟨items, ⟨token, gap⟩, hitems⟩
  · have hchars : p.chars = p.lead := by rw [chars, hitems, spell, List.flatMap_nil, List.append_nil]
    rw [hchars]
    exact stops_blanks fun c hc => p.lead_blank c (List.mem_reverse.1 hc)
  · have hchars : p.chars.reverse =
        gap.reverse ++ (token.text.toList.reverse ++ (p.lead ++ spell items).reverse) := by
      simp [chars, hitems, spell]
    rw [hchars]
    rw [hitems, List.concat_eq_append, List.getLast?_concat] at h
    cases hgap : gap.reverse with
    | cons c rest =>
      have hc : c ∈ gap := List.mem_reverse.1 (hgap ▸ List.mem_cons_self)
      have hblank := p.gap_blank (token, gap) (by simp [hitems]) c hc
      exact stops_cons.2 (by simp [isAtomChar, hblank])
    | nil =>
      cases token with
      | opening | closing => exact stops_cons.2 rfl
      | atom text => exact absurd (List.reverse_eq_nil_iff.1 hgap) (h _ rfl (isAtom_atom text))

/-- Around an atom a spread falls into two, and the atom could not be longer on either side. -/
theorem Spread.exists_around (p : Spread) {before after : List Token} {text : String}
    (h : p.tokens = before ++ atom text :: after) :
    ∃ left right : Spread, left.tokens = before ∧ right.tokens = after ∧
      p.chars = left.chars ++ text.toList ++ right.chars ∧
      Stops isAtomChar left.chars.reverse ∧ Stops isAtomChar right.chars := by
  obtain ⟨items, rest, hitems, rfl, hrest⟩ := List.map_eq_append_iff.1 h
  obtain ⟨⟨_, gap⟩, items', rfl, rfl, rfl⟩ := List.map_eq_cons_iff.1 hrest
  have hblank := p.gap_blank
  have happart := p.apart
  rw [hitems] at hblank happart
  obtain ⟨hblank, hblank'⟩ := List.forall_mem_append.1 hblank
  obtain ⟨hgap, hblank'⟩ := List.forall_mem_cons.1 hblank'
  obtain ⟨hbefore, hafter, hjoint⟩ := List.isChain_append.1 happart
  obtain ⟨hnext, hafter⟩ := List.isChain_cons.1 hafter
  refine ⟨⟨p.lead, items, p.lead_blank, hblank, hbefore⟩, ⟨gap, items', hgap, hblank', hafter⟩,
    rfl, rfl, ?_, ?_, ?_⟩
  · simp [chars, hitems, spell_append, Token.text]
  · exact stops_reverse_chars _ fun item hitem hatom =>
      hjoint item hitem _ rfl hatom (isAtom_atom text)
  · exact stops_spell hgap fun next hmem => hnext next hmem (isAtom_atom text)

/-- The tokens of a text are the words and parentheses that are spread over it: no spread of it has
others, and each one is read back. So no character is lost but blanks, and no atom can be longer. -/
theorem ofText_eq_iff_spread (s : String) :
    (∀ tokens, ofText s = tokens ↔ (∀ text, atom text ∈ tokens → IsWord text) ∧
      ∃ p : Spread, p.tokens = tokens ∧ p.chars = s.toList) ∧
    (ofText s).flatMap (fun token => token.text.toList) =
      s.toList.filter (fun c => !isBlank c) ∧
    ∀ before text after, ofText s = before ++ atom text :: after →
      ∃ left right : List Char, s.toList = left ++ text.toList ++ right ∧ scan left = before ∧
        scan right = after ∧ Stops isAtomChar left.reverse ∧ Stops isAtomChar right := by
  obtain ⟨p, htokens, hchars⟩ := exists_spread s.toList
  have hwords : ∀ text, atom text ∈ p.tokens → IsWord text :=
    fun text htext => isWord_of_mem_scan (htokens ▸ htext)
  refine ⟨fun tokens => ⟨?_, ?_⟩, ?_, fun before text after h => ?_⟩
  · rintro rfl
    exact ⟨fun text => isWord_of_mem_scan, p, htokens, hchars⟩
  · rintro ⟨hwords, q, rfl, hq⟩
    rw [ofText, ← hq, q.scan_chars hwords]
  · rw [ofText, ← htokens, ← hchars, p.filter_chars hwords]
  · have hsplit : p.tokens = before ++ atom text :: after := htokens.trans h
    rw [hsplit] at hwords
    obtain ⟨left, right, rfl, rfl, hjoined, hleft, hright⟩ := p.exists_around hsplit
    refine ⟨left.chars, right.chars, hchars.symm.trans hjoined, left.scan_chars ?_,
      right.scan_chars ?_, hleft, hright⟩
    · exact fun text htext => hwords text (List.mem_append_left _ htext)
    · exact fun text htext => hwords text (List.mem_append_right _ (List.mem_cons_of_mem _ htext))

end Token
end ScopedLisp
