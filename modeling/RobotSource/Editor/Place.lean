import RobotSource.Editor.Position
import RobotSource.Text.Encoding
import RobotSource.Text.Lines
/-!
# Places in a text

An editor names a place by line and units; a text is cut by counting characters. `offsetOf?` goes
from the one to the other, `advance` gives the place behind an inserted text. Carriage returns at
the end of a line are not counted as part of it.
-/

namespace RobotSource.Editor

open Text

/-- The number of characters before a place, counted over the given lines. The units are cut off at
the end of the line; a line beyond the last gives none. -/
def offsetInLines? (enc : Encoding) : List (List Char) → (line character : Nat) → Option Nat
  | [], _, _ => none
  | line :: _, 0, character => some (enc.charsWithin (dropReturns line) character)
  | line :: rest, n + 1, character =>
    (offsetInLines? enc rest n character).map (line.length + 1 + ·)

/-- The number of characters of the text before a place. -/
def offsetOf? (enc : Encoding) (text : List Char) (p : Position) : Option Nat :=
  offsetInLines? enc (splitLines text) p.line p.character

/-- The place behind a text that is inserted at `start`. -/
def advance (enc : Encoding) (start : Position) : List Char → Position
  | [] => start
  | c :: cs =>
    if c = '\n' then advance enc ⟨start.line + 1, 0⟩ cs
    else advance enc ⟨start.line, start.character + enc.units c⟩ cs

/-- The place at the end of a text, in 16-bit units. -/
def endOfText (text : List Char) : Position :=
  advance .utf16 ⟨0, 0⟩ text

end RobotSource.Editor
