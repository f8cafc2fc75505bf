import RobotSource.Proofs.Karel.Grammar.Capitals
import RobotSource.Proofs.Listing.Grammar.Capitals
import RobotSource.Source
/-!
# Letter case

In both languages letter case means nothing. A text with its ASCII letters as capitals can be read if
and only if the text itself can, and then it holds the same program at the same places, but for the
case of what the program stores of its text (`Source.parse_toUpper`).
-/

namespace RobotSource

open Parsing Text

theorem inCapitals_ofText (text : String) : InCapitals (.ofText text) (.ofText text.toUpper) where
  rest := (toList_toUpper text).symm
  position := rfl

/-- A view of a program of either language. -/
def Source.view (v : View) : Source → Source
  | .pendant p => .pendant (p.view v)
  | .karel p => .karel (p.view v)

/-- **Both languages are case insensitive.** -/
theorem Source.parse_toUpper (language : Language) (text : String) :
    (Source.parse language text.toUpper).toOption =
      (Source.parse language text).toOption.map (Source.view .capitals) := by
  cases language with
  | pendant =>
    exact Listing.Grammar.keeps_program_capitals.toOption_map_run (inCapitals_ofText text)
      fun _ => rfl
  | karel =>
    exact Karel.Grammar.keeps_program_capitals.toOption_map_run (inCapitals_ofText text)
      fun _ => rfl

end RobotSource
