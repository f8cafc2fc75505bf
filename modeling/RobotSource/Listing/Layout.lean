import RobotSource.Listing.BodyLine
import RobotSource.Text.LetterCase
import RobotSource.Text.Lines
/-!
# Laying out a listing

The body between `/MN` and `/POS` is written anew: each instruction behind `   1:`, indented by the
blocks around it, and closed by ` ;`. The controller numbers the lines itself when it loads a
listing, so all of them get the same number. Motions get no margin and everything else two spaces,
as the controller prints them. The branches of a select are lined up at their equals signs and
commas. The lines outside the body are kept as they are.
-/

namespace RobotSource.Listing

open Text

/-! ## Select blocks -/

/-- Whether a line continues a select: it is empty, a branch, or an `ELSE,` branch. -/
def continuesSelect (code : List Char) : Bool :=
  code.isEmpty || (caseShape? code).isSome || (elseAction? code).isSome

/-- The number of the select block that each line belongs to. `blocks` is how many have been opened,
`open?` is the one that the previous line belongs to. -/
def selectBlocks (blocks : Nat) (open? : Option Nat) : List (List Char) → List (Option Nat)
  | [] => []
  | code :: rest =>
    if isSelect code then some blocks :: selectBlocks (blocks + 1) (some blocks) rest
    else
      let open? := if continuesSelect code then open? else none
      open? :: selectBlocks blocks open? rest

/-- The columns of a select block: of its equals signs, and of the comma furthest to the right. -/
structure SelectColumns where
  equals : Nat
  comma : Nat
deriving DecidableEq, Repr

/-- The branches of a select block. -/
def blockCases (block : Nat) (lines : List (List Char × Option Nat)) : List CaseShape :=
  lines.filterMap fun (code, b) => if b = some block then caseShape? code else none

/-- The greatest number of a list. -/
def maximum (ns : List Nat) : Nat :=
  ns.foldl max 0

/-- The columns at which the branches of a block are lined up. -/
def selectColumns (cases : List CaseShape) : SelectColumns :=
  let equals := maximum (cases.map fun s => (trimEnd s.head).length)
  { equals
    comma := maximum (cases.map fun s => equals + 1 + (trim s.value).length) }

/-- So many spaces. -/
def blanksOf (n : Nat) : List Char := List.replicate n ' '

/-- The code of a line in a select block, lined up with the others. -/
def alignCode (columns : SelectColumns) (code : List Char) : List Char :=
  match caseShape? code with
  | some s =>
    let head := trimEnd s.head
    head ++ blanksOf (columns.equals - head.length) ++ '=' :: trim s.value ++
      ',' :: trimStart s.action
  | none =>
    match elseAction? code with
    | some action => blanksOf (columns.comma - 4) ++ ['E', 'L', 'S', 'E', ','] ++ action
    | none => code

/-- The code of a line, lined up if it belongs to a select block. -/
def alignLine (lines : List (List Char × Option Nat)) : List Char × Option Nat → List Char
  | (code, some block) => alignCode (selectColumns (blockCases block lines)) code
  | (code, none) => code

/-- The codes of all lines, those of each select block lined up. -/
def alignCodes (codes : List (List Char)) : List (List Char) :=
  let lines := codes.zip (selectBlocks 0 none codes)
  lines.map (alignLine lines)

/-! ## Indentation -/

/-- The depth of a line and the depth behind it. The closer of a block and a bare `ELSE` stand as
far out as the opener. -/
def depths (depth : Nat) (code : List Char) : Nat × Nat :=
  let inner := if closesBlock code then depth - 1 else depth
  let own := if isBareElse code then inner - 1 else inner
  (own, if opensBlock code then inner + 1 else inner)

/-- How far a line of code is moved to the right. -/
def margin (code : List Char) : Nat :=
  if isMotion code then 0 else 2

/-- A body line in its new form. -/
def bodyRow (indent : Nat) (text : List Char) : List Char :=
  [' ', ' ', ' ', '1', ':'] ++ blanksOf indent ++ text ++ [' ', ';']

/-- The body lines in their new form, from a given depth on. Each line comes with its code as it
will be written. -/
def layoutRows (tabSize depth : Nat) : List (BodyLine × List Char) → List (List Char)
  | [] => []
  | (.empty, _) :: rest => [] :: layoutRows tabSize depth rest
  | (.code code, text) :: rest =>
    let (own, behind) := depths depth code
    bodyRow (margin code + own * tabSize) text :: layoutRows tabSize behind rest

/-- The body of a listing, laid out. -/
def layoutBody (tabSize : Nat) (body : List BodyLine) : List (List Char) :=
  layoutRows tabSize 0 (body.zip (alignCodes (body.map (·.text))))

/-! ## Whole listings -/

/-- What a formatting request may ask for. -/
structure LayoutOptions where
  /-- spaces for each level; zero leaves it to the settings -/
  tabSize : Nat
  insertFinalNewline : Bool := false
  trimFinalNewlines : Bool := false
deriving DecidableEq, Repr

/-- Whether a line begins with a section marker, white space and case left aside. -/
def isMarkerLine (marker : String) (line : List Char) : Bool :=
  marker.toList.isPrefixOf ((trimStart line).flatMap upperCase)

/-- Whether a carriage return stands before a line feed somewhere in the text. -/
def hasPairedBreak : List Char → Bool
  | [] => false
  | c :: cs => (c == '\r' && cs.head? == some '\n') || hasPairedBreak cs

/-- The line break that a text uses. -/
def lineBreakOf (text : List Char) : List Char :=
  if hasPairedBreak text then ['\r', '\n'] else ['\n']

/-- Without the blank lines at the end. -/
def dropBlankEnd (lines : List (List Char)) : List (List Char) :=
  (lines.reverse.dropWhile allBlank).reverse

/-- The lines of a listing: up to and with `/MN`, the body, and from `/POS` on. -/
structure Sections where
  head : List (List Char)
  body : List (List Char)
  tail : List (List Char)
deriving DecidableEq, Repr

/-- The sections of a listing, if it has the two markers in this order. -/
def Sections.ofLines? (lines : List (List Char)) : Option Sections := do
  let main ← lines.findIdx? (isMarkerLine "/MN")
  let positions ← lines.findIdx? (isMarkerLine "/POS")
  if positions < main then none
  return {
    head := lines.take (main + 1)
    body := (lines.take positions).drop (main + 1)
    tail := lines.drop positions }

/-- The lines of a text between its breaks; a final break opens no further line. -/
def listingLines (text : List Char) : List (List Char) :=
  let pieces := splitLines (unifyBreaks text)
  if text.getLast? = some '\n' then pieces.dropLast else pieces

/-- A listing laid out; none if a marker is missing. -/
def layoutChars? (defaultTab : Nat) (options : LayoutOptions) (text : List Char) :
    Option (List Char) := do
  let sections ← Sections.ofLines? (listingLines text)
  let tabSize := if options.tabSize = 0 then defaultTab else options.tabSize
  let body := layoutBody tabSize (sections.body.map BodyLine.ofLine)
  let lines := sections.head ++ body ++ sections.tail
  let lines := if options.trimFinalNewlines then dropBlankEnd lines else lines
  let newline := lineBreakOf text
  let final := text.getLast? = some '\n' ∨ options.insertFinalNewline
  return joinLines newline lines ++ (if final then newline else [])

/-- A listing laid out; none if a marker is missing, and the text is best left alone. -/
def layout? (defaultTab : Nat) (options : LayoutOptions) (text : String) : Option String :=
  (layoutChars? defaultTab options text.toList).map String.ofList

end RobotSource.Listing
