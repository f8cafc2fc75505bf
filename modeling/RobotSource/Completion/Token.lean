import RobotSource.Text.Lines
/-!
# Tokens of a line

The line before the cursor is cut at its white space; a quoted text stays whole. A quote runs to the
next character of its kind, or to the end of the line.
-/

namespace RobotSource.Completion

open Text

/-- Puts a character in front of the first piece. -/
def extendFirst (c : Char) : List (List Char) → List (List Char)
  | [] => [[c]]
  | piece :: pieces => (c :: piece) :: pieces

/-- Whether a character opens a quote. -/
def isQuote (c : Char) : Bool := c == '"' || c == '\''

/-- The pieces of a line between its white space outside of quotes; `quote` is the character that
closes the quote in which the line begins. -/
def pieces (quote : Option Char) : List Char → List (List Char)
  | [] => [[]]
  | c :: cs =>
    match quote with
    | some q => extendFirst c (pieces (if c = q then none else some q) cs)
    | none =>
      if isBlank c then [] :: pieces none cs
      else extendFirst c (pieces (if isQuote c then some c else none) cs)

/-- The tokens of a line. -/
def tokenize (line : List Char) : List (List Char) :=
  (pieces none line).filter (!·.isEmpty)

/-- How many arguments a header comment describes: one in each line that begins with `AR[`. -/
def argumentCount (header : String) : Nat :=
  ((textLines header.toList).filter fun line => "AR[".toList.isPrefixOf (trimStart line)).length

end RobotSource.Completion
