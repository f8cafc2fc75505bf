import RobotSource.Karel.Program
import RobotSource.Karel.Grammar.DataType
import RobotSource.Karel.Grammar.Statement
import RobotSource.Text.Lines
/-!
# Grammar of Karel programs

A program is `PROGRAM name`, then directives and declarations, the main body between `BEGIN` and
`END name`, and possibly more declarations. A routine must repeat its own name behind `END`; the
name behind the `END` of the program is not compared.
-/

namespace RobotSource.Karel.Grammar

open Parsing Parsing.Parser Text

/-! ## Declarations -/

/-- `name = value`. -/
def constant : Parser Constant := do
  let (name, span) ← lexeme name
  op "="
  let value ← expression
  return ⟨name, value, span.cover value.span⟩

/-- `name = type`, where the owner may be named with `FROM`. -/
def typeDeclaration : Parser TypeDeclaration := do
  let (name, span) ← lexeme name
  let owner ← maybe (kw "FROM" *> ident)
  op "="
  let type ← dataType
  return ⟨name, owner, type, span.cover type.span⟩

/-- The variables of a section. -/
def varItems : Parser (List Variable) :=
  NameGroup.items Variable.mk <$> many1 nameGroup

/-- A section of constants, types or variables. -/
def dataSection : Parser DataSection :=
  (.constants <$> (kw "CONST" *> many1 constant)) <|>
  (.types <$> (kw "TYPE" *> many1 typeDeclaration)) <|>
  (.vars <$> (kw "VAR" *> varItems))

/-- A section with its span. -/
def dataDeclaration : Parser DataDeclaration := do
  let (content, span) ← coded dataSection
  return ⟨content, span⟩

/-- Parameters in parentheses, groups of them divided by semicolons. -/
def parameters : Parser (List Variable) := do
  punct '('
  let groups ← sepBy1 (punct ';') nameGroup
  punct ')'
  return NameGroup.items (fun name _ type span => ⟨name, none, type, span⟩) groups

/-- Fails, asking for `what`, unless `p` reads a name that matches it. -/
def matching (what : String) (p : Parser String) : Parser Unit := fun c =>
  match p c with
  | .done word rest =>
    if sameIgnoringCase word what then .done () rest else .failed (.expecting c what)
  | .failed e => .failed e
  | .aborted e => .aborted e

/-- Local data and body of a routine; the name is repeated at its end. -/
def routineBody (name : String) : Parser (List DataDeclaration × List Statement) := do
  let locals ← many dataDeclaration
  kw "BEGIN"
  let body ← statements
  kw "END"
  matching name ident
  return (locals, body)

/-- A routine. One that is found in another program has no body, and one that is only announced has
none either. -/
def routine : Parser Routine := do
  kw "ROUTINE"
  let (name, nameSpan) ← lexeme name
  let parameters ← maybe parameters
  let returnType ← maybe (punct ':' *> dataType)
  let owner ← maybe (kw "FROM" *> ident)
  let content ← if owner.isSome then pure none else maybe (routineBody name)
  return {
    name
    nameSpan
    parameters := parameters.getD []
    returnType
    owner
    locals := (content.map (·.1)).getD []
    body := content.map (·.2) }

/-- Any declaration of a program. -/
def declaration : Parser Declaration := do
  let (kind, span) ← coded ((.data <$> dataSection) <|> (.routine <$> routine))
  return ⟨kind, span⟩

/-- A directive, up to the end of its line. -/
def directive : Parser Directive := do
  let ((name, tail), span) ← spanned do
    let _ ← char '%'
    let name ← identifier
    let tail ← restOfLine
    return (name, tail)
  blanks
  let value := trim ((trim tail).dropWhile (· == '='))
  return {
    name := upper name
    value := if value.isEmpty then none else some (String.ofList (trimOf '\'' value))
    span }

/-! ## Programs -/

/-- The text of a comment line. -/
def commentText? (line : List Char) : Option String :=
  match trimStart line with
  | '-' :: '-' :: text => some (String.ofList (trim text))
  | _ => none

/-- The leading lines that are comments. -/
def leadingComments : List (List Char) → List String
  | [] => []
  | line :: lines =>
    match commentText? line with
    | some text => text :: leadingComments lines
    | none => []

/-- The header comment: the comments before `PROGRAM`, or if there are none, the block that begins
on the line behind the program's name. -/
def headerComment (before after : List Char) : String :=
  match (textLines before).filterMap commentText? with
  | [] => "\n".intercalate (leadingComments ((textLines after).drop 1))
  | lines => "\n".intercalate lines

/-- What may stand before the main body. -/
inductive PrologueItem where
  | directive (directive : Directive)
  | declaration (declaration : Declaration)

/-- The directive of a prologue item. -/
def PrologueItem.directive? : PrologueItem → Option Directive
  | .directive d => some d
  | .declaration _ => none

/-- The declaration of a prologue item. -/
def PrologueItem.declaration? : PrologueItem → Option Declaration
  | .directive _ => none
  | .declaration d => some d

/-- A complete program. -/
def program : Parser Program := do
  let top ← cursor
  blanks
  let leading := top.upTo (← cursor)
  kw "PROGRAM"
  let name ← name
  spaces
  let header := headerComment leading (← cursor).rest
  blanks
  let prologue ← many ((.directive <$> directive) <|> (.declaration <$> declaration))
  kw "BEGIN"
  let main ← statements
  kw "END"
  let _ ← ident
  let trailing ← many declaration
  let stop ← position
  let _ ← endOfText
  return {
    name
    header
    directives := prologue.filterMap PrologueItem.directive?
    declarations := prologue.filterMap PrologueItem.declaration? ++ trailing
    main
    span := ⟨top.position, stop⟩ }

end Grammar

/-- The program that a text holds. -/
def Program.parse (text : String) : Except Parsing.SyntaxError Program :=
  Grammar.program.run text

end RobotSource.Karel
