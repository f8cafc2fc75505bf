import RobotSource.Karel.DataType
import RobotSource.Karel.Statement
import RobotSource.Text.LetterCase
/-!
# Karel programs

A program declares constants, types, variables and routines around its main body. A routine has
local data of its own but no routines inside it. Names are looked up without regard to case.
-/

namespace RobotSource.Karel

/-! ## Declarations -/

/-- A named constant. -/
structure Constant where
  name : String
  value : Expr
  span : Span
deriving Repr

/-- A named type. -/
structure TypeDeclaration where
  name : String
  /-- the program that owns the type -/
  owner : Option String
  type : DataType
  span : Span
deriving Repr

/-- A variable or parameter. -/
structure Variable where
  name : String
  /-- the kind of memory, as in `IN CMOS` -/
  storage : Option String
  type : DataType
  span : Span
deriving Repr

/-- A section that declares data. -/
inductive DataSection where
  | constants (items : List Constant)
  | types (items : List TypeDeclaration)
  | vars (items : List Variable)
deriving Repr

/-- A data section and its span. -/
structure DataDeclaration where
  content : DataSection
  span : Span
deriving Repr

/-- A routine. -/
structure Routine where
  name : String
  nameSpan : Span
  parameters : List Variable
  returnType : Option DataType
  /-- the program that implements the routine -/
  owner : Option String
  locals : List DataDeclaration
  /-- none for a routine that is only announced, or is found elsewhere -/
  body : Option (List Statement)
deriving Repr

/-- What a program may declare. -/
inductive DeclarationKind where
  | data (content : DataSection)
  | routine (routine : Routine)
deriving Repr

/-- A declaration and its span. -/
structure Declaration where
  kind : DeclarationKind
  span : Span
deriving Repr

/-- `%NAME` or `%NAME = value`. -/
structure Directive where
  name : String
  value : Option String
  span : Span
deriving Repr

/-! ## Programs -/

/-- A Karel program. -/
structure Program where
  name : String
  /-- the leading comment block, a line for each comment, without the dashes -/
  header : String
  directives : List Directive
  /-- in source order, those behind the main body included -/
  declarations : List Declaration
  main : List Statement
  span : Span
deriving Repr

namespace Program

open Text

/-- The constants of the program. -/
def constants (p : Program) : List Constant :=
  p.declarations.flatMap fun d => match d.kind with
    | .data (.constants items) => items
    | _ => []

/-- The types of the program. -/
def types (p : Program) : List TypeDeclaration :=
  p.declarations.flatMap fun d => match d.kind with
    | .data (.types items) => items
    | _ => []

/-- The variables of the program. -/
def vars (p : Program) : List Variable :=
  p.declarations.flatMap fun d => match d.kind with
    | .data (.vars items) => items
    | _ => []

/-- The routines of the program. -/
def routines (p : Program) : List Routine :=
  p.declarations.filterMap fun d => match d.kind with
    | .routine routine => some routine
    | _ => none

/-- The constant of a name. -/
def findConstant? (p : Program) (name : String) : Option Constant :=
  p.constants.find? fun c => sameIgnoringCase c.name name

/-- The type of a name. -/
def findType? (p : Program) (name : String) : Option TypeDeclaration :=
  p.types.find? fun t => sameIgnoringCase t.name name

/-- The variable of a name. -/
def findVariable? (p : Program) (name : String) : Option Variable :=
  p.vars.find? fun v => sameIgnoringCase v.name name

end Program

end RobotSource.Karel
