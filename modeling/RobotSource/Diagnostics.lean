import RobotSource.Editor.Answer
import RobotSource.Parsing.Basic
import RobotSource.Text.Lines
/-!
# Diagnostics of a parse

A syntax error is shown from where the parser gave up to the end of that line. A text that parses
has no diagnostics.
-/

namespace RobotSource

open Text

/-- The result of a parse, without the tree. -/
abbrev ParseStatus := Except Parsing.SyntaxError Unit

/-- The diagnostic of a syntax error in a text. -/
def syntaxDiagnostic (e : Parsing.SyntaxError) (text : String) : Editor.Diagnostic :=
  let start := Editor.Position.ofSource e.position
  let length := match lineAt? text start.line with
    | some line => line.length
    | none => start.character
  let suggestion :=
    if e.expected.isEmpty then "" else ", expected " ++ ", ".intercalate e.expected
  { range := ⟨start, ⟨start.line, max length start.character⟩⟩
    message := e.message ++ suggestion }

/-- The diagnostics that go with a parse of a text. -/
def statusDiagnostics (status : ParseStatus) (text : String) : List Editor.Diagnostic :=
  match status with
  | .ok () => []
  | .error e => [syntaxDiagnostic e text]

end RobotSource
