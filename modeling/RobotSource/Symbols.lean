import RobotSource.Editor.Answer
import RobotSource.Source
/-!
# Symbols of a document

A pendant program lists its labels. A Karel program lists its declarations, the fields of a
structure under its type, and the parameters and local data of a routine under the routine.
-/

namespace RobotSource

open Editor

/-- The symbol of a label. -/
def labelSymbol (d : Listing.LabelDefinition) : Symbol :=
  .mk ("LBL[" ++ toString d.number ++ "]") d.comment .label (.ofSpan d.span) none

/-- The symbol of a variable or parameter. -/
def variableSymbol (v : Karel.Variable) : Symbol :=
  .mk v.name (some v.type.text) .variable (.ofSpan v.span) none

/-- The symbol of a constant. -/
def constantSymbol (c : Karel.Constant) : Symbol :=
  .mk c.name (some c.value.text) .constant (.ofSpan c.span) none

/-- The symbol of a structure's field. -/
def fieldSymbol (f : Karel.StructureField Karel.DataType) : Symbol :=
  .mk f.name (some f.type.text) .field (.ofSpan f.span) none

/-- The symbol of a type, with its fields if it is a structure. -/
def typeSymbol (t : Karel.TypeDeclaration) : Symbol :=
  let children := match t.type with
    | .structure _ fields => some (fields.map fieldSymbol)
    | _ => none
  .mk t.name (some t.type.text) .type (.ofSpan t.span) children

/-- The symbols of a data section. -/
def sectionSymbols : Karel.DataSection → List Symbol
  | .constants items => items.map constantSymbol
  | .types items => items.map typeSymbol
  | .vars items => items.map variableSymbol

/-- What is said about a routine: where it is found, that it is only announced, or what it
returns. -/
def routineDetail (r : Karel.Routine) : Option String :=
  match r.owner, r.body with
  | some program, _ => some ("from " ++ program)
  | none, none => some "forward"
  | none, some _ => r.returnType.map (·.text)

/-- The symbols of a declaration. -/
def declarationSymbols (d : Karel.Declaration) : List Symbol :=
  match d.kind with
  | .data content => sectionSymbols content
  | .routine r =>
    let children := r.parameters.map variableSymbol ++
      r.locals.flatMap fun l => sectionSymbols l.content
    [.mk r.name (routineDetail r) .routine (.ofSpan d.span) (some children)]

/-- The symbols of a program. -/
def documentSymbols : Source → List Symbol
  | .pendant p => p.labels.map labelSymbol
  | .karel p => p.declarations.flatMap declarationSymbols

end RobotSource
