import RobotSource.Proofs.Listing.Grammar.Program
import RobotSource.Proofs.Parsing.Capitals
/-!
# Listings in capitals

Letter case means nothing in a listing: with its ASCII letters as capitals, it is read as the same
program, at the same places, and what the program stores of the text stands in capitals
(`keeps_program_capitals`).
-/

namespace RobotSource.Listing

open Text

namespace Grammar

open Parsing Parsing.Parser

/-! ## Tokens -/

theorem keeps_number_capitals : Agrees InCapitals InCapitals number Upper := by
  have hpoint : Agrees InCapitals InCapitals (char '.') fun _ _ => True :=
    keeps_char_capitals rfl
  have hfraction := hpoint.pass <| keeps_takeWhile_capitals isDigit_toUpper
  refine keeps_recognized_capitals (V := fun _ _ => True) (.orElse ?_ ?_)
  · exact keeps_digits_capitals.pass <|
      (Keeps.maybe hfraction).pass <| .pure trivial
  · exact hpoint.pass <| keeps_digits_capitals.pass <|
      .pure trivial

theorem keeps_quoted_capitals {quote : Char} (hquote : quote.isAlpha = false) :
    Agrees InCapitals InCapitals (quoted quote) Upper := by
  refine (keeps_char_capitals hquote).pass <| ?_
  refine (keeps_takeWhile_capitals fun x => ?_).bind fun a b hab => ?_
  · rw [beq_toUpper hquote, beq_toUpper rfl]
  · exact (keeps_char_capitals hquote).pass <|
      .pure (by rw [Upper, toUpper_ofList, hab])

theorem keeps_textUntil_capitals {b : Char} (hstop : b.isAlpha = false) :
    Keeps InCapitals InCapitals Upper (textUntil b) (textUntil b) := by
  refine (keeps_takeWhile_capitals fun x => ?_).bind fun _ _ hab => .pure ?_
  · rw [beq_toUpper hstop, isBreak_toUpper]
  · rw [Upper, toUpper_ofList, ← trim_toUpper, hab]

theorem keeps_systemVariable_capitals :
    Agrees InCapitals InCapitals systemVariable Upper := by
  have hchar {x : Char} (hx : x.isAlpha = false) :
      Agrees InCapitals InCapitals (char x) fun _ _ => True :=
    keeps_char_capitals hx
  have hname : Agrees InCapitals InCapitals identifier Upper :=
    keeps_identifier_capitals
  have hsubscript (x : Char) :
      (!(x.toUpper == ']' || x.toUpper == '\n')) = !(x == ']' || x == '\n') := by
    rw [beq_toUpper rfl, beq_toUpper rfl]
  have hstep : Agrees InCapitals InCapitals systemStep fun _ _ => True := by
    refine .orElse ?_ ?_
    · exact (hchar rfl).pass <| (Keeps.maybe (hchar rfl)).pass <| hname.pass <|
        .pure trivial
    · exact (hchar rfl).pass <| (keeps_takeWhile_capitals hsubscript).pass <|
        (hchar rfl).pass <| .pure trivial
  have hprogram : Agrees InCapitals InCapitals
      (do let _ ← char '['; let _ ← identifier; char ']') fun _ _ => True :=
    (hchar rfl).pass <| hname.pass (hchar rfl)
  exact keeps_recognized_capitals ((hchar rfl).pass <|
    (Keeps.maybe hprogram).pass <|
      hname.pass <| hstep.many)

theorem keeps_closedComment_capitals :
    Agrees InCapitals InCapitals closedComment (SameComment .capitals .same) := by
  have hcomment := (keeps_char_capitals (x := ':') rfl).seqRight
    (keeps_textUntil_capitals (b := ']') rfl)
  refine (Keeps.maybe hcomment).bind fun a b hab => ?_
  refine (keeps_char_capitals rfl).pass <| .pure ?_
  cases hab with
  | none => exact ⟨rfl, Iff.rfl⟩
  | some h =>
    refine ⟨congrArg some h, ?_⟩
    rw [← h, Option.some.injEq, Option.some.injEq, toUpper_eq_empty_iff]

theorem lexis_capitals : Lexis InCapitals InCapitals .capitals .same where
  loose_of_tight _ _ h := h
  position _ _ h := h.position
  spaces := keeps_spaces_capitals
  symbol _ _ := keeps_symbol_capitals.imp (fun _ _ h => h) fun _ _ _ => trivial
  keyword _ _ := keeps_keyword_capitals.imp (fun _ _ h => h) fun _ _ _ => trivial
  char x hx := by
    refine keeps_char_capitals ?_
    simp only [List.mem_cons, List.not_mem_nil, or_false] at hx
    rcases hx with rfl | rfl | rfl <;> rfl
  identifier := keeps_identifier_capitals
  number := keeps_number_capitals
  string := (keeps_quoted_capitals rfl).orElse (keeps_quoted_capitals rfl)
  system := keeps_systemVariable_capitals
  comment := keeps_closedComment_capitals
  labelNumber c d h := rel_labelNumber (keeps_digits_capitals c d h)
  labelEnd := by
    have hend : Agrees InCapitals InCapitals
        (Parsing.char ']' <|> Parsing.char ':') fun _ _ => True :=
      (keeps_char_capitals rfl).orElse (keeps_char_capitals rfl)
    exact hend.imp (fun _ _ _ => trivial) fun _ _ h => h

theorem wording_capitals : Wording InCapitals InCapitals .capitals .same where
  toLexis := lexis_capitals
  note := keeps_symbol_capitals.seqRight (keeps_textUntil_capitals rfl)
  remark := keeps_symbol_capitals.seqRight (keeps_textUntil_capitals rfl)
  message := by
    refine keeps_keyword_capitals.seqRight (keeps_symbol_capitals.bind fun _ _ _ => ?_)
    exact (keeps_textUntil_capitals rfl).bind fun a b hab => keeps_symbol_capitals.pass <| .pure hab

/-! ## Lines and sections -/

theorem atMarker_toUpper (marker : String) (t : List Char) :
    atMarker marker (t.map Char.toUpper) = atMarker marker t := by
  simp only [atMarker]
  rw [dropWhile_toUpper isSpaceOrTab_toUpper, ← List.map_take, sameCharsIgnoringCase_toUpper_left]

theorem attributeComment?_toUpper (line : List Char) :
    attributeComment? (line.map Char.toUpper) = (attributeComment? line).map String.toUpper := by
  rw [attributeComment?, attributeComment?, trim_toUpper]
  simp only [← List.map_take, ← List.map_drop, sameCharsIgnoringCase_toUpper_left,
    trimStart_toUpper]
  split
  · cases trimStart ((trim line).drop 7) with
    | nil => rfl
    | cons x value =>
      by_cases hx : x = '='
      · obtain rfl := hx
        have hbare : trimOf '"' (trim (dropEndWhile (· == ';') (trim (value.map Char.toUpper)))) =
            (trimOf '"' (trim (dropEndWhile (· == ';') (trim value)))).map Char.toUpper := by
          rw [trim_toUpper, dropEndWhile_toUpper (beq_toUpper rfl), trim_toUpper,
            trimOf_toUpper rfl]
        rw [List.map_cons, show Char.toUpper '=' = '=' from rfl]
        simp only [hbare, Option.map_some, toUpper_ofList]
      · have hupper : x.toUpper ≠ '=' := mt (toUpper_eq_iff rfl x).1 hx
        rw [List.map_cons]
        split
        · rename_i heq
          exact absurd (List.cons.inj heq).1 hupper
        · split
          · rename_i heq
            exact absurd (List.cons.inj heq).1 hx
          · rfl
  · rfl

theorem typesetting_capitals :
    Typesetting InCapitals (fun a b => a.map Char.toUpper = b) .capitals .same where
  toWording := wording_capitals
  atEnd _ _ h := h.atEnd.symm
  atMarker w _ c d h := by rw [← h.rest, atMarker_toUpper]
  marker _ _ := keeps_keyword_capitals.imp (fun _ _ h => h) fun _ _ _ => trivial
  digits := keeps_digits_capitals.imp (fun _ _ h => h) fun _ _ _ => trivial
  lineMark x hx := by
    refine keeps_char_capitals ?_
    simp only [List.mem_cons, List.not_mem_nil, or_false] at hx
    rcases hx with rfl | rfl <;> rfl
  lineBreak := keeps_lineBreak_capitals
  line := keeps_takeWhile_capitals fun x => by rw [isBreak_toUpper]
  spacing := (keeps_takeWhile_capitals isSpacing_toUpper).imp (fun _ _ h => h) fun _ _ _ => trivial
  heading a _ h := by
    rw [← h, attributeComment?_toUpper]
    exact Option.map_id'.symm

/-- **A listing in capitals is read as the listing.** -/
theorem keeps_program_capitals :
    Keeps InCapitals InCapitals (fun p q => p.view .capitals = q) program program :=
  typesetting_capitals.program.imp (fun _ _ h => h) fun _ q h => h.trans q.view_same

end Grammar

end RobotSource.Listing
