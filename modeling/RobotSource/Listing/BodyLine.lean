import RobotSource.Text.Blank
import RobotSource.Text.WordCharacter
/-!
# Body lines as the layout sees them

Laying out a listing works on the text of its lines and not on its syntax tree, so that lines which
do not parse are laid out as well. This module takes the code out of a body line and recognises the
few shapes that matter for the layout: the branches of a select, the openers and closers of blocks,
and motions. Words are recognised in any case, and a long s counts as an s.
-/

namespace RobotSource.Listing

open Text

/-! ## The code of a line -/

/-- A body line: empty, or code without its line number and semicolon. -/
inductive BodyLine where
  | empty
  | code (text : List Char)
deriving DecidableEq, Repr

/-- What follows the line number and its colon, if the line begins with one. -/
def afterLineNumber? (line : List Char) : Option (List Char) :=
  let text := trimStart line
  match text.takeWhile isDecimalDigit, text.dropWhile isDecimalDigit with
  | _ :: _, ':' :: rest => some rest
  | _, _ => none

/-- The code of a line that ends with a semicolon, without that semicolon. -/
def terminated? (text : List Char) : Option (List Char) :=
  let text := trimEnd text
  if text.getLast? = some ';' then some (trimEnd text.dropLast) else none

/-- The code of a line that lacks its number or its semicolon. -/
def looseCode (text : List Char) : List Char :=
  trimEnd (dropEndWhile (· == ';') (trim text))

/-- Reads a body line. A line that has both its number and its semicolon loses just these; any other
loses its number, if it has one, and all semicolons at its end. -/
def BodyLine.ofLine (line : List Char) : BodyLine :=
  if allBlank line then .empty
  else match afterLineNumber? line with
    | some rest =>
      match terminated? (trimStart rest) with
      | some text => .code text
      | none => .code (looseCode rest)
    | none => .code (looseCode line)

/-- The code of a line; an empty line has none. -/
def BodyLine.text : BodyLine → List Char
  | .empty => []
  | .code text => text

/-! ## Words -/

/-- Whether a character is the given small letter, in any case. -/
def isLetter (letter c : Char) : Bool :=
  c.toLower == letter || (letter == 's' && c.toNat == 0x17f)

/-- What follows a word, given in small letters, at the beginning of a text. -/
def afterLetters? : List Char → List Char → Option (List Char)
  | [], text => some text
  | _ :: _, [] => none
  | l :: ls, c :: cs => if isLetter l c then afterLetters? ls cs else none

/-- Whether a word could end before this text: it does not go on with a word character. -/
def atWordEnd (text : List Char) : Bool :=
  !text.head?.any isWordCharacter

/-- What follows a whole word at the beginning of a text. -/
def afterWord? (word : String) (text : List Char) : Option (List Char) :=
  (afterLetters? word.toList text).filter atWordEnd

/-! ## The shapes of code -/

/-- Whether the code opens a select. -/
def isSelect (code : List Char) : Bool :=
  (afterWord? "select" code).isSome

/-- A branch of a select: what stands before the equals sign, the value behind it up to the comma,
and the action behind the comma. -/
structure CaseShape where
  head : List Char
  value : List Char
  action : List Char
deriving DecidableEq, Repr

/-- Splits at the first comma. -/
def splitComma? (text : List Char) : Option (List Char × List Char) :=
  match text.dropWhile (· != ',') with
  | ',' :: rest => some (text.takeWhile (· != ','), rest)
  | _ => none

/-- What stands before the equals sign of a branch: nothing, or a select with its subject. -/
def caseHead (code : List Char) : List Char :=
  if isSelect code then code.takeWhile fun c => !(c == '=' || c == ',') else []

/-- The shape of a branch. -/
def caseShape? (code : List Char) : Option CaseShape := do
  let head := caseHead code
  match code.drop head.length with
  | '=' :: rest =>
    let (value, action) ← splitComma? rest
    return ⟨head, value, action⟩
  | _ => none

/-- The action of an `ELSE,` branch. -/
def elseAction? (code : List Char) : Option (List Char) := do
  let rest ← afterLetters? "else".toList code
  match trimStart rest with
  | ',' :: action => return trimStart action
  | _ => none

/-- Whether the code is a bare `ELSE`. -/
def isBareElse (code : List Char) : Bool :=
  afterLetters? "else".toList code == some []

/-- Whether the code ends with `THEN` as a word of its own. -/
def endsWithThen (code : List Char) : Bool :=
  match afterLetters? "neht".toList code.reverse with
  | some before => atWordEnd before
  | none => false

/-- Whether the code opens an `IF … THEN` block. -/
def opensIf (code : List Char) : Bool :=
  match afterWord? "if" code with
  | some rest => endsWithThen rest
  | none => false

/-- Whether the code opens a block. -/
def opensBlock (code : List Char) : Bool :=
  opensIf code || (afterWord? "for" code).isSome

/-- Whether the code closes a block. -/
def closesBlock (code : List Char) : Bool :=
  (afterWord? "endif" code).isSome || (afterWord? "endfor" code).isSome

/-- Whether the code is a motion: the letter of a motion type, then white space. -/
def isMotion (code : List Char) : Bool :=
  match code with
  | c :: d :: _ => ['j', 'l', 'c', 'a'].contains c.toLower && isBlank d
  | _ => false

end RobotSource.Listing
