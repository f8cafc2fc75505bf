import RobotSource.Text.Word
import RobotSource.Workspace.Basic
/-!
# What a token refers to

In a listing, the name behind `CALL` or `RUN` refers to the program of that name anywhere in the
workspace, and a label reference to the label of the same program. In a Karel program a word refers
to a declaration of the same program. `resolve` finds what the token under a place refers to, and
`definition` where it stands.
-/

namespace RobotSource

open Text

/-! ## Declarations of a Karel program -/

/-- A declaration found in a Karel program. -/
inductive Declared where
  | constant (item : Karel.Constant)
  | type (item : Karel.TypeDeclaration)
  | variable (item : Karel.Variable)
  | routine (item : Karel.Routine)
deriving Repr

namespace Declared

/-- The name of the declaration. -/
def name : Declared → String
  | .constant c => c.name
  | .type t => t.name
  | .variable v => v.name
  | .routine r => r.name

/-- The range of the declaration; that of a routine is its name. -/
def range : Declared → Editor.Range
  | .constant c => .ofSpan c.span
  | .type t => .ofSpan t.span
  | .variable v => .ofSpan v.span
  | .routine r => .ofSpan r.nameSpan

end Declared

/-- The routine of a name: the last one with a body, or else the last one. -/
def findRoutine? (p : Karel.Program) (name : String) : Option Karel.Routine :=
  let named := p.routines.filter fun r => sameIgnoringCase r.name name
  ((named.filter (·.body.isSome)).getLast?).or named.getLast?

/-- The declaration of a name: of several, a constant comes before a type, a variable and a
routine. -/
def findDeclaration? (p : Karel.Program) (name : String) : Option Declared :=
  ((p.findConstant? name).map .constant).or <|
    ((p.findType? name).map .type).or <|
      ((p.findVariable? name).map .variable).or <|
        (findRoutine? p name).map .routine

/-! ## References -/

/-- What a token refers to. -/
inductive Target where
  | program (document : Document)
  | label (definition : Listing.LabelDefinition)
  | declaration (declared : Declared)
deriving Repr

/-- A token that refers to something. -/
structure Reference where
  target : Target
  /-- the range of the token -/
  range : Editor.Range
deriving Repr

/-- What the label under a place refers to; only the first reference that holds the place counts. -/
def labelReference? (p : Listing.Program) (references : List Listing.LabelReference)
    (place : Editor.Position) : Option Reference := do
  let reference ← references.find? fun r => (Editor.Range.ofSpan r.span).contains place
  let number ← reference.number?
  let definition ← p.findLabel? number
  return ⟨.label definition, .ofSpan reference.span⟩

/-- What the token at a place of a listing refers to. -/
def listingReference? (ws : Workspace) (p : Listing.Program) (place : Editor.Position) :
    Option Reference := do
  let instruction ← p.instructionAt? (place.line + 1)
  match instruction.call? with
  | some call =>
    if (Editor.Range.ofSpan call.nameSpan).contains place then
      let target ← ws.find? call.name
      return ⟨.program target, .ofSpan call.nameSpan⟩
    else labelReference? p instruction.labelReferences place
  | none => labelReference? p instruction.labelReferences place

/-- What the word at a place of a Karel program refers to. -/
def karelReference? (d : Document) (p : Karel.Program) (place : Editor.Position) :
    Option Reference := do
  let line ← lineAt? d.text place.line
  let word ← wordAt? line.toList place.character
  let declared ← findDeclaration? p (String.ofList word.text)
  return ⟨.declaration declared, ⟨⟨place.line, word.start⟩, ⟨place.line, word.stop⟩⟩⟩

/-- What the token at a place of an opened document refers to. -/
def resolve (ws : Workspace) (uri : Uri) (place : Editor.Position) :
    Except WorkspaceError (Option Reference) := do
  let d ← ws.entry uri
  let place := Document.charPosition ws.encoding d.text place
  match d.source with
  | some (.pendant p) => return listingReference? ws p place
  | some (.karel p) => return karelReference? d p place
  | none => return none

/-! ## Definitions -/

/-- Where a target stands, seen from a document. A program stands at its beginning. -/
def Target.location (uri : Uri) : Target → Editor.Location
  | .program document => ⟨document.uri.text, ⟨⟨0, 0⟩, ⟨0, 0⟩⟩⟩
  | .label definition => ⟨uri.text, .ofSpan definition.span⟩
  | .declaration declared => ⟨uri.text, declared.range⟩

/-- Where the definition of the token at a place stands. -/
def definition (ws : Workspace) (uri : Uri) (place : Editor.Position) :
    Except WorkspaceError (Option Editor.Location) := do
  let reference ← resolve ws uri place
  return reference.map fun r => r.target.location uri

end RobotSource
