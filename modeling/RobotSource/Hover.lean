import RobotSource.Reference
/-!
# Hovers

The text shown over a token describes what it refers to: a program with its header comment, a label
with its line, or a declaration as it would be written.
-/

namespace RobotSource

open Text

/-- The line between two sections of a hover. -/
def sectionBreak : String := "\n\n---\n\n"

/-- A program: its name and kind, its path, and its header comment line by line. -/
def programMarkdown (ws : Workspace) (d : Document) : String :=
  let title := "**" ++ upper d.bareName ++ "** (" ++ d.language.programType ++ ")"
  let path := "\n\n\x60" ++ d.uri.pathInWorkspace ws.folders ++ "\x60"
  let lines := (splitLines d.header.toList).map String.ofList
  title ++ path ++ (if d.header = "" then "" else sectionBreak ++ "  \n".intercalate lines)

/-- A label: its number and comment, and the line on which it stands. -/
def labelMarkdown (l : Listing.LabelDefinition) : String :=
  let comment := match l.comment with
    | some text => ":" ++ text
    | none => ""
  "**LBL[" ++ toString l.number ++ comment ++ "]**\n\ndefined on line " ++
    toString l.span.start.line

/-- A routine as it is announced. -/
def routineSignature (r : Karel.Routine) : String :=
  let parameters := r.parameters.map fun p => p.name ++ ": " ++ p.type.text
  "ROUTINE " ++ r.name ++
    (if parameters.isEmpty then "" else "(" ++ "; ".intercalate parameters ++ ")") ++
    (match r.returnType with
      | some type => ": " ++ type.text
      | none => "") ++
    (match r.owner with
      | some program => " FROM " ++ program
      | none => "")

/-- A declaration as it would be written on one line. -/
def declarationText : Declared → String
  | .constant c => "CONST " ++ c.name ++ " = " ++ c.value.text
  | .type t => "TYPE " ++ t.name ++ " = " ++ t.type.text
  | .variable v =>
    match v.storage with
    | some storage => v.name ++ " IN " ++ storage ++ " : " ++ v.type.text
    | none => v.name ++ " : " ++ v.type.text
  | .routine r => routineSignature r

/-- The fields of a declared structure, as a list. -/
def fieldList : Declared → Option String
  | .type ⟨_, _, .structure _ fields, _⟩ =>
    some ("\n".intercalate (fields.map fun f => "* \x60" ++ f.name ++ "\x60 : " ++ f.type.text))
  | _ => none

/-- A declaration, with its fields if it is a structure. -/
def declarationMarkdown (d : Declared) : String :=
  "\x60\x60\x60\n" ++ declarationText d ++ "\n\x60\x60\x60" ++
    (match fieldList d with
      | some fields => sectionBreak ++ fields
      | none => "")

/-- The description of a target. -/
def Target.markdown (ws : Workspace) : Target → String
  | .program document => programMarkdown ws document
  | .label definition => labelMarkdown definition
  | .declaration declared => declarationMarkdown declared

/-- What is shown over the token at a place of an opened document. -/
def hover (ws : Workspace) (uri : Uri) (place : Editor.Position) :
    Except WorkspaceError (Option Editor.Hover) := do
  let reference ← resolve ws uri place
  return reference.map fun r => ⟨r.target.markdown ws, r.range⟩

end RobotSource
