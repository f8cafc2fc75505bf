import RobotSource.Json.Basic
import RobotSource.Position
/-!
# Positions and ranges of an editor

An editor counts lines and characters from zero. A range contains the positions from its start to
its end, the end included. As in `RobotSource.Position` the counts have no bound, and texts of 4 GiB
and more are left out.
-/

namespace RobotSource.Editor

/-- A place in a document, counted from zero. -/
structure Position where
  line : Nat
  character : Nat
deriving DecidableEq, Repr, Inhabited

/-- A stretch of a document. -/
structure Range where
  start : Position
  stop : Position
deriving DecidableEq, Repr, Inhabited

/-- The place of a source position. -/
def Position.ofSource (p : RobotSource.Position) : Position :=
  ⟨p.line - 1, p.column - 1⟩

/-- The range of a span of source text. -/
def Range.ofSpan (s : Span) : Range :=
  ⟨.ofSource s.start, .ofSource s.stop⟩

/-- Whether the range contains the position, its end included. -/
def Range.contains (r : Range) (p : Position) : Bool :=
  !(p.line < r.start.line || r.stop.line < p.line ||
    (p.line == r.start.line && p.character < r.start.character) ||
    (p.line == r.stop.line && r.stop.character < p.character))

/-- A position as a message holds it. -/
def Position.toJson (p : Position) : Json :=
  .object [("line", .nat p.line), ("character", .nat p.character)]

/-- A range as a message holds it. -/
def Range.toJson (r : Range) : Json :=
  .object [("start", r.start.toJson), ("end", r.stop.toJson)]

end RobotSource.Editor
