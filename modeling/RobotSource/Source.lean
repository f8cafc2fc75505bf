import RobotSource.Karel.Grammar.Program
import RobotSource.Language
import RobotSource.Listing.Grammar.Program
/-!
# Programs of either language
-/

namespace RobotSource

/-- A program that was read from source text. -/
inductive Source where
  | pendant (program : Listing.Program)
  | karel (program : Karel.Program)
deriving Repr

namespace Source

/-- The program that a text holds in the given language. -/
def parse : Language → String → Except Parsing.SyntaxError Source
  | .pendant, text => Source.pendant <$> Listing.Program.parse text
  | .karel, text => Source.karel <$> Karel.Program.parse text

/-- The language of the program. -/
def language : Source → Language
  | .pendant _ => .pendant
  | .karel _ => .karel

/-- The name that the program gives itself. -/
def name : Source → String
  | .pendant p => p.name
  | .karel p => p.name

/-- The header comment. -/
def header : Source → String
  | .pendant p => p.header
  | .karel p => p.header

/-- The pendant program, if it is one. -/
def pendant? : Source → Option Listing.Program
  | .pendant p => some p
  | .karel _ => none

/-- The Karel program, if it is one. -/
def karel? : Source → Option Karel.Program
  | .pendant _ => none
  | .karel p => some p

end Source

end RobotSource
