import RobotSource.Proofs.Karel.Grammar.Declaration
import RobotSource.Proofs.Parsing.Capitals
/-!
# Karel programs in capitals

Letter case means nothing in a Karel program: with its ASCII letters as capitals, it is read as the
same program, at the same places, and what the program stores of the text stands in capitals
(`keeps_program_capitals`).
-/

namespace RobotSource.Karel.Grammar

open Parsing Parsing.Parser Text List

/-! ## White space and code -/

theorem head?_toUpper_eq_iff {x : Char} (hx : x.isAlpha = false) (t : List Char) :
    (t.map Char.toUpper).head? = some x ↔ t.head? = some x := by
  cases t with
  | nil => rfl
  | cons y t => simp [toUpper_eq_iff hx]

theorem blankLength_toUpper (comment : Bool) (t : List Char) :
    blankLength comment (t.map Char.toUpper) = blankLength comment t := by
  induction t generalizing comment with
  | nil => rfl
  | cons x t ih =>
    simp only [map_cons, blankLength, ih, isBreak_toUpper, isSpacing_toUpper,
      toUpper_eq_iff (x := '-') rfl, head?_toUpper_eq_iff (x := '-') rfl]

theorem keeps_blanks_capitals :
    Keeps InCapitals InCapitals (fun _ _ => True) blanks blanks := by
  intro c d hcd
  rw [blanks, blanks, ← hcd.rest, blankLength_toUpper]
  exact .done trivial (hcd.drop _)

theorem scanCode_toUpper (quoted comment : Bool) (here last : Position) (t : List Char) :
    scanCode quoted comment here last (t.map Char.toUpper) = scanCode quoted comment here last t := by
  induction t generalizing quoted comment here last with
  | nil => rfl
  | cons x t ih =>
    have hnext : here.after x.toUpper = here.after x := by
      simp only [Position.after, toUpper_eq_iff (x := '\n') rfl x]
    simp only [map_cons, scanCode, ih, hnext, isBlank_toUpper, toUpper_eq_iff (x := '\n') rfl,
      toUpper_eq_iff (x := '-') rfl, head?_toUpper_eq_iff (x := '-') rfl,
      beq_toUpper (x := '\'') rfl]

/-! ## Names -/

theorem sameIgnoringCase_toUpper_left (a b : String) :
    sameIgnoringCase a.toUpper b = sameIgnoringCase a b := by
  rw [sameIgnoringCase, sameIgnoringCase, toList_toUpper, sameCharsIgnoringCase_toUpper_left]

theorem sameIgnoringCase_toUpper_right (a b : String) :
    sameIgnoringCase a b.toUpper = sameIgnoringCase a b := by
  rw [sameIgnoringCase, sameIgnoringCase, toList_toUpper, sameCharsIgnoringCase_toUpper_right]

theorem isReserved_toUpper (word : String) : isReserved word.toUpper = isReserved word := by
  rw [isReserved, isReserved, funext (sameIgnoringCase_toUpper_left word)]

theorem keeps_name_capitals : Agrees InCapitals InCapitals name Upper := by
  intro c d hcd
  rw [name, name]
  have hword := keeps_identifier_capitals c d hcd
  generalize identifier c = o, identifier d = o' at hword
  cases hword with
  | done heq hrest =>
    simp only [← heq, isReserved_toUpper]
    split
    · exact .failed
    · exact .done rfl hrest
  | failed => exact .failed
  | aborted => exact .aborted

theorem axes?_toUpper (word : List Char) : axes? (word.map Char.toUpper) = axes? word := by
  have hall : ((word.drop 8).map Char.toUpper).all Char.isDigit = (word.drop 8).all Char.isDigit := by
    rw [all_map]
    exact congrArg (List.all _) (funext isDigit_toUpper)
  simp only [axes?, ← map_take, ← map_drop, sameCharsIgnoringCase_toUpper_left, ne_eq,
    map_eq_nil_iff, hall]
  split
  · rename_i hword
    have hsame : ∀ x ∈ word.drop 8, x.toUpper = id x := fun x hx =>
      toUpper_of_isDigit (all_eq_true.1 hword.2.2 x hx)
    rw [map_congr_left hsame, map_id]
  · rfl

theorem typeOfWord_toUpper (word : String) (s : Span) :
    (typeOfWord word s).view .capitals = typeOfWord word.toUpper s := by
  rw [typeOfWord, typeOfWord]
  simp only [sameIgnoringCase_toUpper_left, sameIgnoringCase_toUpper_right, toList_toUpper,
    axes?_toUpper]
  split
  · rfl
  split
  · rfl
  split
  · rfl
  · rfl

/-! ## Tokens -/

theorem keeps_number_capitals : Agrees InCapitals InCapitals number Upper := by
  have hpoint : Agrees InCapitals InCapitals (char '.') fun _ _ => True := keeps_char_capitals rfl
  have hfraction := hpoint.seqRight (keeps_takeWhile_capitals isDigit_toUpper)
  have hsign : Agrees InCapitals InCapitals (charThat "sign" fun c => c == '+' || c == '-')
      fun _ _ => True :=
    keeps_charThat_capitals fun x => by rw [beq_toUpper rfl, beq_toUpper rfl]
  unfold number
  refine (keeps_recognized_capitals (.pass (V := fun _ _ => True) (W := Option.Rel (· = ·))
    (.orElse ?_ ?_) (.maybe ?_))).named
  · exact keeps_digits_capitals.pass (hfraction.maybe.pass (.pure trivial))
  · exact hpoint.pass (keeps_digits_capitals.pass (.pure trivial))
  · exact (keeps_charThat_capitals (apply_toUpper (by decide))).pass
      (hsign.maybe.pass keeps_digits_capitals)

theorem keeps_stringLiteral_capitals : Agrees InCapitals InCapitals stringLiteral Upper := by
  refine (keeps_char_capitals rfl).pass <| ?_
  refine (keeps_takeWhile_capitals fun x => ?_).bind fun a b hab => ?_
  · rw [beq_toUpper rfl, beq_toUpper rfl]
  · exact (keeps_char_capitals rfl).pass <| .pure (by rw [Upper, toUpper_ofList, hab])

theorem keeps_systemName_capitals : Agrees InCapitals InCapitals systemName Upper :=
  keeps_recognized_capitals
    ((keeps_char_capitals rfl).seqRight keeps_identifier_capitals)

theorem keeps_verb_capitals :
    Agrees InCapitals InCapitals verb
      fun a b => a.length = b.length ∧ (upper a).toUpper = upper b := by
  refine (keeps_keyword_capitals.orElse keeps_keyword_capitals).imp (fun _ _ h => h) ?_
  rintro a _ rfl
  refine ⟨?_, toUpper_upper a⟩
  rw [← String.length_toList, ← String.length_toList, toList_toUpper, length_map]

theorem keeps_directive_capitals :
    Agrees InCapitals InCapitals directive fun a b => a.view .capitals = b.view .same := by
  have hline : Agrees InCapitals InCapitals
      (do let _ ← char '%'; let name ← identifier; let tail ← restOfLine; return (name, tail))
      fun a b => (a.1.toUpper, a.2.map Char.toUpper) = b := by
    refine (keeps_char_capitals rfl).pass <|
      keeps_identifier_capitals.bind fun a b hab =>
      (keeps_takeWhile_capitals fun x => ?_).bind fun s t hst => .pure ?_
    · rw [isBreak_toUpper]
    · rw [hab, hst]
  have hspanned := hline.spanned (P := (· = ·)) (fun _ _ h => h.position) fun _ _ h => h.position
  refine hspanned.bind fun x y hxy => keeps_blanks_capitals.pass <| .pure ?_
  obtain ⟨⟨word, tail⟩, span⟩ := x
  obtain ⟨y, span'⟩ := y
  obtain ⟨rfl, hstart, hstop⟩ := hxy
  have hspan : View.capitals.span span = View.same.span span' := congrArg₂ Span.mk hstart hstop
  have hvalue : trim ((trim (tail.map Char.toUpper)).dropWhile (· == '=')) =
      (trim ((trim tail).dropWhile (· == '='))).map Char.toUpper := by
    rw [trim_toUpper, dropWhile_toUpper (beq_toUpper rfl), trim_toUpper]
  simp only [hvalue, Directive.view, hspan, isEmpty_map, trimOf_toUpper (x := '\'') rfl]
  refine congrArg₂ (Directive.mk · · _) (toUpper_upper word) ?_
  split
  · rfl
  · exact congrArg some (toUpper_ofList _)

/-- Places in capitals are the same places. -/
theorem flush_capitals {α β : Type} {V : α → β → Prop} {p : Parser α} {q : Parser β}
    (h : Keeps InCapitals InCapitals V p q) :
    Keeps InCapitals (Flush InCapitals .capitals .same) V p q :=
  h.imp (fun _ _ h => ⟨h, h.position⟩) fun _ _ h => h

theorem lexis_capitals : Lexis InCapitals InCapitals .capitals .same where
  loose_of_tight _ _ h := h
  position _ _ h _ := h.position
  column p q k h := by
    obtain rfl : p = q := h
    rfl
  code c d c' d' h h' _ := by
    rw [← h.upTo h', endOfCode, endOfCode, scanCode_toUpper, h.position]
    rfl
  atEnd _ _ h := h.atEnd.symm
  blanks := keeps_blanks_capitals
  char x hx := by
    refine flush_capitals (keeps_char_capitals ?_)
    revert x
    decide
  symbol _ _ := keeps_symbol_capitals.imp (fun _ _ h => h) fun _ _ _ => trivial
  keyword _ _ := keeps_keyword_capitals.imp (fun _ _ h => h) fun _ _ _ => trivial
  identifier := keeps_identifier_capitals
  name := keeps_name_capitals
  number := keeps_number_capitals
  string := keeps_stringLiteral_capitals
  system := keeps_systemName_capitals
  programVariable :=
    (keeps_char_capitals rfl).pass <| keeps_identifier_capitals.bind
      fun _ _ hprogram => (keeps_char_capitals rfl).pass <|
      keeps_identifier_capitals.bind fun _ _ hname => .pure ⟨hprogram, hname⟩
  fieldName :=
    flush_capitals <| (keeps_char_capitals rfl).pass <|
      (keeps_name_capitals.orElse keeps_systemName_capitals)
  labelMark :=
    keeps_name_capitals.bind fun _ _ hab => keeps_spaces_capitals.pass <|
      keeps_symbol_capitals.pass <| .pure hab
  groupMark :=
    keeps_keyword_capitals.pass <|
      (keeps_char_capitals rfl).pass <| .pure trivial
  verb := keeps_verb_capitals
  matching a b a' b' h h' := by
    obtain rfl : a.toUpper = b := h
    obtain rfl : a'.toUpper = b' := h'
    rw [sameIgnoringCase_toUpper_left, sameIgnoringCase_toUpper_right]
  type a b s t h hst := by
    obtain rfl : a.toUpper = b := h
    obtain rfl : s = t := hst
    rw [typeOfWord_toUpper, DataType.view_same]

/-! ## Programs -/

theorem splitLines_toUpper (t : List Char) :
    splitLines (t.map Char.toUpper) = (splitLines t).map (List.map Char.toUpper) := by
  induction t with
  | nil => rfl
  | cons x t ih =>
    simp only [map_cons, splitLines, ih, toUpper_eq_iff (x := '\n') rfl]
    split
    · rfl
    · cases splitLines t <;> rfl

theorem dropOneReturn_toUpper (line : List Char) :
    dropOneReturn (line.map Char.toUpper) = (dropOneReturn line).map Char.toUpper := by
  have hlast : (line.map Char.toUpper).getLast? = some '\r' ↔ line.getLast? = some '\r' := by
    rw [getLast?_map]
    cases line.getLast? with
    | none => exact Iff.rfl
    | some x => simp [toUpper_eq_iff (x := '\r') rfl]
  simp only [dropOneReturn, hlast]
  split
  · rw [map_dropLast]
  · rfl

theorem textLines_toUpper (t : List Char) :
    textLines (t.map Char.toUpper) = (textLines t).map (List.map Char.toUpper) := by
  have hclosed : ((splitLines t).map (List.map Char.toUpper)).dropLast.map dropOneReturn =
      ((splitLines t).dropLast.map dropOneReturn).map (List.map Char.toUpper) := by
    rw [← map_dropLast, map_map, map_map]
    exact map_congr_left fun line _ => dropOneReturn_toUpper line
  simp only [textLines, splitLines_toUpper, hclosed, getLast?_map]
  cases (splitLines t).getLast? with
  | none => rfl
  | some line =>
    cases line with
    | nil => rfl
    | cons x line => simp

theorem commentText?_eq (line : List Char) : commentText? line =
    if (trimStart line).take 2 = ['-', '-'] then
      some (String.ofList (trim ((trimStart line).drop 2)))
    else none := by
  rw [commentText?]
  split
  · rename_i text hline
    rw [hline]
    rfl
  · rename_i hline
    rw [if_neg fun htake => hline ((trimStart line).drop 2) ?_]
    have hsplit := take_append_drop 2 (trimStart line)
    rw [htake] at hsplit
    exact hsplit.symm

theorem commentText?_toUpper (line : List Char) :
    commentText? (line.map Char.toUpper) = (commentText? line).map String.toUpper := by
  rw [commentText?_eq, commentText?_eq, trimStart_toUpper, ← map_take, ← map_drop,
    trim_toUpper]
  simp only [map_toUpper_eq_iff (w := ['-', '-']) (by simp)]
  split
  · rw [Option.map_some, toUpper_ofList]
  · rfl

theorem leadingComments_toUpper (lines : List (List Char)) :
    leadingComments (lines.map (List.map Char.toUpper)) =
      (leadingComments lines).map String.toUpper := by
  induction lines with
  | nil => rfl
  | cons line lines ih =>
    rw [map_cons, leadingComments, leadingComments, commentText?_toUpper, ih]
    cases commentText? line <;> rfl

theorem intercalate_toUpper (lines : List String) :
    ("\n".intercalate lines).toUpper = "\n".intercalate (lines.map String.toUpper) := by
  have happend (s t : String) : (s ++ t).toUpper = s.toUpper ++ t.toUpper := by
    rw [← String.toList_inj]
    simp only [toList_toUpper, String.toList_append, map_append]
  have hbreak : "\n".toUpper = "\n" := by decide +kernel
  induction lines with
  | nil => decide +kernel
  | cons line lines ih =>
    cases lines with
    | nil => rw [map_singleton, String.intercalate_singleton, String.intercalate_singleton]
    | cons next lines =>
      rw [map_cons] at ih ⊢
      rw [map_cons, String.intercalate_cons_cons, String.intercalate_cons_cons, happend, happend,
        hbreak, ih]

theorem headerComment_toUpper (before after : List Char) :
    (headerComment before after).toUpper =
      headerComment (before.map Char.toUpper) (after.map Char.toUpper) := by
  have hbefore : (textLines (before.map Char.toUpper)).filterMap commentText? =
      ((textLines before).filterMap commentText?).map String.toUpper := by
    rw [textLines_toUpper, filterMap_map, map_filterMap]
    exact congrArg (List.filterMap · _) (funext commentText?_toUpper)
  rw [headerComment, headerComment, hbefore]
  cases (textLines before).filterMap commentText? with
  | nil =>
    simp only [map_nil]
    rw [textLines_toUpper, ← map_drop, leadingComments_toUpper, intercalate_toUpper]
  | cons line lines =>
    simp only [map_cons]
    rw [intercalate_toUpper, map_cons]

/-- **A program in capitals is read as the program.** -/
theorem keeps_program_capitals :
    Keeps InCapitals InCapitals (fun p q => p.view .capitals = q) program program := by
  have hlexis := lexis_capitals
  rw [program_eq]
  refine .cursor_bind fun c d hcd => ?_
  refine keeps_blanks_capitals.pass <| .cursor_bind fun c₁ d₁ hcd₁ => ?_
  refine .pass hlexis.kw <| keeps_name_capitals.bind
    fun a b hab => keeps_spaces_capitals.pass <| .cursor_bind fun c₂ d₂ hcd₂ => ?_
  refine (hlexis.content keeps_directive_capitals fun _ _ h => h.position).bind
    fun k k' hk => .pure ?_
  have hheader : (headerComment (c.upTo c₁) c₂.rest).toUpper =
      headerComment (d.upTo d₁) d₂.rest := by
    rw [headerComment_toUpper, hcd.upTo hcd₁, hcd₂.rest]
  have hstart : View.capitals.position c.position = d.position := hcd.position
  rw [← Program.view_same (Content.program b _ d.position k'), Content.view_program,
    Content.view_program, hk.view_eq, hstart]
  exact congrArg₂ (Content.program · · _ _) hab hheader

end RobotSource.Karel.Grammar
