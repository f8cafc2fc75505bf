import RobotSource.Proofs.Karel.Grammar.Returns
import RobotSource.Proofs.Listing.Grammar.Returns
import RobotSource.Source
/-!
# Line breaks

Both languages take a carriage return with a line feed for a line feed. A text whose line feeds all
get a carriage return can be read if and only if the text itself can, and then it holds the same
program, with every place, every comment and the header (`Source.parse_withReturns`).
-/

namespace RobotSource

open Parsing Text

theorem returned_ofText {text : String} (h : '\r' ∉ text.toList) :
    Returned text.toList (.ofText text) (.ofText (String.ofList (withReturns text.toList))) where
  bare := h
  suffix := List.suffix_refl _
  rest := String.toList_ofList.symm
  position := rfl

/-- **In both languages the two kinds of line breaks are the same.** -/
theorem Source.parse_withReturns (language : Language) {text : String} (h : '\r' ∉ text.toList) :
    (Source.parse language (String.ofList (withReturns text.toList))).toOption =
      (Source.parse language text).toOption := by
  refine Eq.trans ?_ Option.map_id_apply
  cases language with
  | pendant =>
    exact Listing.Grammar.keeps_program_returned.toOption_map_run (returned_ofText h) fun _ => rfl
  | karel =>
    exact Karel.Grammar.keeps_program_returned.toOption_map_run (returned_ofText h) fun _ => rfl

/-- A program with a header, a directive, a comment at the end of a line and a string. -/
theorem Source.parse_withReturns_commented :
    let text := "-- it's\n\nPROGRAM p\n%DELAY 5\nBEGIN -- '\n  WRITE('a--', 1.\n)\nEND p\n"
    '\r' ∉ text.toList ∧
      String.ofList (withReturns text.toList) =
        "-- it's\r\n\r\nPROGRAM p\r\n%DELAY 5\r\nBEGIN -- '\r\n  WRITE('a--', 1.\r\n)\r\nEND p\r\n" ∧
      ((Source.parse .karel (String.ofList (withReturns text.toList))).toOption.map
        Source.header) = some "it's" := by
  intro text
  have hbare : '\r' ∉ text.toList := by decide
  have hheader : (Source.parse .karel text).toOption.map Source.header = some "it's" := by
    decide +kernel
  refine ⟨hbare, by decide, ?_⟩
  rw [Source.parse_withReturns .karel hbare, hheader]

end RobotSource
