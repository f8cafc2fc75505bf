import RobotSource.Text.Alphanumeric
/-!
# The word at a place in a line

A word is a run of letters, digits, underscores and dollar signs. A place in a line lies between two
characters; it touches the word that ends or begins there.
-/

namespace RobotSource.Text

/-- A character of a word: a letter or number of any script, an underscore or a dollar sign. -/
def isWordPart (c : Char) : Bool :=
  isAlphanumeric c || c == '_' || c == '$'

/-- A word of a line: its characters, and the indices where it begins and ends. -/
structure LineWord where
  text : List Char
  start : Nat
  stop : Nat
deriving DecidableEq, Repr

/-- The word that touches the place before the character at `index`; a place beyond the line is the
end of the line. -/
def wordAt? (line : List Char) (index : Nat) : Option LineWord :=
  let place := min index line.length
  let before := (line.take place).reverse.takeWhile isWordPart
  let after := (line.drop place).takeWhile isWordPart
  if before.isEmpty && after.isEmpty then none
  else some ⟨before.reverse ++ after, place - before.length, place + after.length⟩

end RobotSource.Text
