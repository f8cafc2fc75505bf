import RobotSource.Listing.Grammar.Instruction
import RobotSource.Listing.Program
/-!
# Grammar of listings

A listing runs from `/PROG` over the attributes and `/MN` to the body lines, then optionally `/POS`
with position data, and ends with `/END`. The section markers are found at the beginning of a line,
behind spaces and tabs and in any case.
-/

namespace RobotSource.Listing.Grammar

open Parsing Parsing.Parser Text

/-! ## Sections -/

/-- Whether the text begins with the marker, spaces and tabs left aside. -/
def atMarker (marker : String) (text : List Char) : Bool :=
  let code := text.dropWhile isSpaceOrTab
  sameCharsIgnoringCase (code.take marker.length) marker.toList

/-- Lines that hold nothing but spaces and tabs. -/
def emptyLines : Parser Unit := do
  let _ ← many (spaces *> lineBreak)

/-- The lines before the first one that begins with the marker. -/
def linesUntil (marker : String) : Parser (List (List Char)) :=
  nested fun self => do
    let c ← cursor
    if c.atEnd then expected marker
    else if atMarker marker c.rest then return []
    else
      let line ← restOfLine
      let _ ← lineEnd
      let lines ← self
      return line :: lines

/-- The line of a section marker. -/
def markerLine (marker : String) : Parser Unit := do
  spaces
  let _ ← keyword marker
  let _ ← lineEnd

/-- The value of the attribute `COMMENT = "..."`, if the line is that attribute. -/
def attributeComment? (line : List Char) : Option String :=
  let text := trim line
  if sameCharsIgnoringCase (text.take 7) "COMMENT".toList then
    match trimStart (text.drop 7) with
    | '=' :: value =>
      let bare := trim (dropEndWhile (· == ';') (trim value))
      some (String.ofList (trimOf '"' bare))
    | _ => none
  else none

/-- The body lines up to the next section, empty lines left aside. -/
def bodyLines : Parser (List Instruction) :=
  nested fun self => do
    emptyLines
    let c ← cursor
    if c.atEnd || atMarker "/POS" c.rest || atMarker "/END" c.rest then return []
    else
      let i ← instruction
      let is ← self
      return i :: is

/-- The position section, which is read over, if there is one. -/
def positionData : Parser Unit := do
  let c ← cursor
  if atMarker "/POS" c.rest then
    markerLine "/POS"
    let _ ← linesUntil "/END"

/-- Nothing may follow the end of the listing but white space. -/
def nothingMore : Parser Unit := do
  let _ ← takeWhile isSpacing
  let c ← cursor
  if c.atEnd then return () else demanded "end of file after /END"

/-- A complete listing. -/
def program : Parser Program := do
  let start ← position
  emptyLines
  let _ ← keyword "/PROG"
  let name ← identifier
  spaces
  let subType ← maybe (do let word ← identifier; spaces; return word)
  let _ ← lineEnd
  let attributes ← linesUntil "/MN"
  markerLine "/MN"
  let instructions ← bodyLines
  positionData
  spaces
  let _ ← keyword "/END"
  let stop ← position
  nothingMore
  return {
    name
    subType
    comment := (attributes.filterMap attributeComment?).getLast?
    instructions
    span := ⟨start, stop⟩ }

end Grammar

/-! ## Reading a text -/

/-- The listing that a text holds. -/
def Program.parse (text : String) : Except Parsing.SyntaxError Program :=
  Grammar.program.run text

/-- The instruction that a text begins with. -/
def Instruction.parse (text : String) : Except Parsing.SyntaxError Instruction :=
  Grammar.instruction.run text

end RobotSource.Listing
