import RobotSource.Text.LetterCase
/-!
# The two languages

Teach pendant programs in listing form, and Karel programs. A language is known by a name, as an
editor or a command line gives it, or by the extension of a file.
-/

namespace RobotSource

open Text

/-- A source language. -/
inductive Language where
  | pendant
  | karel
deriving DecidableEq, Repr

namespace Language

/-- The language of a name, in any case. -/
def ofName? (name : String) : Option Language :=
  let key := lower name
  if key ∈ ["tp", "fanuc-tp", "ls"] then some .pendant
  else if key ∈ ["karel", "fanuc-karel", "kl"] then some .karel
  else none

/-- The language of a file extension, in any case. -/
def ofExtension? (extension : String) : Option Language :=
  let key := lower extension
  if key ∈ ["ls", "tp"] then some .pendant
  else if key = "kl" then some .karel
  else none

/-- The extension of source files. -/
def extension : Language → String
  | .pendant => "ls"
  | .karel => "kl"

/-- The short name. -/
def name : Language → String
  | .pendant => "TP"
  | .karel => "KAREL"

/-- What a program of the language is called. -/
def programType : Language → String
  | .pendant => "TP program"
  | .karel => "KAREL program"

end Language

end RobotSource
