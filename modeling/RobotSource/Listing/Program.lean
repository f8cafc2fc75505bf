import RobotSource.Listing.Instruction
/-!
# Pendant listings

A listing is a program in the controller's ASCII form: a name, attributes of which the comment is
kept, and the body instructions.
-/

namespace RobotSource.Listing

/-- A pendant program. -/
structure Program where
  name : String
  /-- the word behind the name, such as `Macro` -/
  subType : Option String
  /-- the value of the attribute `COMMENT` -/
  comment : Option String
  instructions : List Instruction
  span : Span
deriving Repr

namespace Program

/-- Whether an instruction line is empty. -/
def isBlank (i : Instruction) : Bool :=
  match i.kind with
  | .blank => true
  | _ => false

/-- The text of a comment instruction. -/
def commentText? (i : Instruction) : Option String :=
  match i.kind with
  | .comment text => some text
  | _ => none

/-- The comment instructions that head the body, blank instructions before them left aside. -/
def headerLines : List Instruction → List String
  | [] => []
  | i :: rest =>
    match commentText? i with
    | some text => text :: headerLines rest
    | none => []

/-- The header comment, a line for each comment instruction. -/
def header (p : Program) : String :=
  "\n".intercalate (headerLines (p.instructions.dropWhile isBlank))

/-- The label that an instruction defines. -/
def labelDefinition? (i : Instruction) : Option LabelDefinition :=
  match i.kind with
  | .label definition => some definition
  | _ => none

/-- The label definitions, in order. -/
def labels (p : Program) : List LabelDefinition :=
  p.instructions.filterMap labelDefinition?

/-- The first definition of a label number. -/
def findLabel? (p : Program) (number : Nat) : Option LabelDefinition :=
  p.labels.find? (·.number == number)

/-- The instruction on a row. -/
def instructionAt? (p : Program) (row : Nat) : Option Instruction :=
  p.instructions.find? (·.row == row)

end Program

end RobotSource.Listing
