import RobotSource.Text.Blank
/-!
# Lines of a text

Only a line feed divides lines. `splitLines` cuts a text at every line feed, so that the pieces put
together again with line feeds are the text. `textLines` is the reader's view: a carriage return
before a line feed belongs to the break, and a final break opens no further line. `lineAt?` gives
one line without the carriage returns at its end.
-/

namespace RobotSource.Text

/-- The pieces of the text between line feeds. There is always at least one. -/
def splitLines : List Char → List (List Char)
  | [] => [[]]
  | c :: cs =>
    if c = '\n' then [] :: splitLines cs
    else match splitLines cs with
      | [] => [[c]]
      | line :: lines => (c :: line) :: lines

/-- The lines put together with a separator between them. -/
def joinLines (separator : List Char) : List (List Char) → List Char
  | [] => []
  | [line] => line
  | line :: lines => line ++ separator ++ joinLines separator lines

/-- Without one carriage return at the end. -/
def dropOneReturn (line : List Char) : List Char :=
  if line.getLast? = some '\r' then line.dropLast else line

/-- The lines of a text: the last piece counts only if something stands in it, and the pieces before
it lose the carriage return of their break. -/
def textLines (cs : List Char) : List (List Char) :=
  let pieces := splitLines cs
  let closed := pieces.dropLast.map dropOneReturn
  match pieces.getLast? with
  | some (c :: line) => closed ++ [c :: line]
  | _ => closed

/-- Without the carriage returns at the end of a line. -/
def dropReturns (line : List Char) : List Char :=
  dropEndWhile (· == '\r') line

/-- The line with the given number, counted from zero. -/
def lineAt? (text : String) (row : Nat) : Option String :=
  (splitLines text.toList)[row]?.map fun line => String.ofList (dropReturns line)

/-- Every pair of carriage return and line feed becomes a line feed. -/
def unifyBreaks : List Char → List Char
  | [] => []
  | '\r' :: '\n' :: cs => '\n' :: unifyBreaks cs
  | c :: cs => c :: unifyBreaks cs

end RobotSource.Text
