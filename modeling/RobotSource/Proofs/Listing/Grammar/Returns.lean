import RobotSource.Proofs.Listing.Grammar.LineEnding
import RobotSource.Proofs.Listing.Grammar.Program
import RobotSource.Proofs.Parsing.Returns
/-!
# Listings with carriage returns

A carriage return before every line feed makes no difference to a listing: it is read as the same
program, at the same places (`keeps_program_returned`).
-/

namespace RobotSource.Listing.Grammar

open Parsing Text

variable {text : List Char}

theorem borders_lineOver : Borders isBreak LineOver where
  toEncloses := encloses_lineOver
  marks := by decide
  words := by decide

/-- What stops at a break stops at the same place. -/
theorem keeps_takeWhile_line {q : Char → Bool} (hq : ∀ x, isBreak x → q x = false) :
    Keeps (Returned text) (Returned text) (· = ·) (takeWhile q) (takeWhile q) :=
  .of_local (fun _ _ h => h.moves) (.takeWhile encloses_lineOver.toDelimits hq)

theorem abreast_returned : Abreast isBreak LineOver (Returned text) .same .same where
  borders := borders_lineOver
  moves _ _ h := h.moves
  matching _ _ _ hw h := h.matches hw
  position _ _ h := h.position
  spaces := keeps_spaces_returned
  text := by
    refine (keeps_takeWhile_line fun x hx => ?_).bind fun a b hab => .pure ?_
    · rw [hx, Bool.or_true, Bool.not_true]
    · rw [hab]
  name := rfl
  literal := rfl

/-- A marker is found on its line, whatever ends the line. -/
theorem sameChars_take_withReturns {w : List Char} (hw : ∀ x ∈ w, isBreak x = false)
    (t : List Char) : sameCharsIgnoringCase ((withReturns t).take w.length) w =
      sameCharsIgnoringCase (t.take w.length) w := by
  induction w generalizing t with
  | nil => rfl
  | cons y w ih =>
    obtain ⟨hy, hw⟩ := List.forall_mem_cons.1 hw
    cases t with
    | nil => rfl
    | cons x t =>
      by_cases hx : x = '\n'
      · -- neither character of the break is the first of the marker
        have hfeed : ('\n' == y.toLower) = false := beq_eq_false_iff_ne.2 fun h => by
          rw [eq_of_toLower_eq (by decide) h.symm] at hy
          cases hy
        have hreturn : ('\r' == y.toLower) = false := beq_eq_false_iff_ne.2 fun h => by
          rw [eq_of_toLower_eq (by decide) h.symm] at hy
          cases hy
        rw [hx, withReturns_feed]
        simp [sameCharsIgnoringCase, hfeed, hreturn]
      · have hrest := ih hw t
        rw [withReturns_cons hx]
        simp only [sameCharsIgnoringCase, List.length_cons, List.take_succ_cons, List.map_cons,
          List.cons_beq_cons] at hrest ⊢
        rw [hrest]

theorem atMarker_withReturns {marker : String} (hmarker : marker ∈ markers) (t : List Char) :
    atMarker marker (withReturns t) = atMarker marker t := by
  have hline : ∀ x ∈ marker.toList, isBreak x = false := by
    revert marker
    decide
  have hsame := sameChars_take_withReturns hline (t.dropWhile isSpaceOrTab)
  simp only [atMarker]
  rwa [dropWhile_withReturns rfl, ← String.length_toList]

theorem typesetting_returned : Typesetting (Returned text) (· = ·) .same .same where
  toWording := abreast_returned.wording
  atEnd _ _ h := h.atEnd
  atMarker _ hw _ _ h := by rw [← h.rest, atMarker_withReturns hw]
  marker w hw := by
    refine .keyword (fun _ _ h => h.matches ?_) keeps_spaces_returned fun _ => trivial
    revert w
    decide
  digits := abreast_returned.token (.digits encloses_lineOver.toDelimits) fun _ => trivial
  lineMark x hx := by
    refine abreast_returned.token (.char encloses_lineOver.toDelimits ?_) fun _ => trivial
    simp only [List.mem_cons, List.not_mem_nil, or_false] at hx
    rcases hx with rfl | rfl <;> rfl
  lineBreak := keeps_lineBreak_returned
  line := keeps_takeWhile_line fun x hx => by rw [hx, Bool.not_true]
  spacing := (keeps_takeWhile_returned rfl).imp (fun _ _ h => h) fun _ _ _ => trivial
  heading _ _ h := by rw [h]

/-- **A listing with carriage returns is read as the listing without.** -/
theorem keeps_program_returned :
    Keeps (Returned text) (Returned text) (fun p q => id p = q) program program :=
  typesetting_returned.program.imp (fun _ _ h => h)
    fun p q h => p.view_same.symm.trans (h.trans q.view_same)

end RobotSource.Listing.Grammar
