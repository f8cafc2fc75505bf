import RobotSource.Editor.Answer
import RobotSource.Editor.Place
import RobotSource.Listing.Layout
/-!
# The edit of a formatting request

Formatting answers with one edit that replaces the whole document, or with none if the listing lacks
its markers or is laid out already.
-/

namespace RobotSource.Listing

/-- The edits that lay out a listing. -/
def layoutEdits (defaultTab : Nat) (options : LayoutOptions) (text : String) :
    List Editor.TextEdit :=
  match layout? defaultTab options text with
  | some new =>
    if new = text then [] else [⟨⟨⟨0, 0⟩, Editor.endOfText text.toList⟩, new⟩]
  | none => []

end RobotSource.Listing
