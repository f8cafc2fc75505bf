import RobotSource.Karel.DataType
import RobotSource.Karel.Grammar.Expression
import RobotSource.Text.Digit
/-!
# Grammar of Karel types
-/

namespace RobotSource.Karel.Grammar

open Parsing Parsing.Parser Text

/-- The number of axes in a name such as `JOINTPOS6`: one to nine, possibly behind zeros. -/
def axes? (word : List Char) : Option Nat :=
  let digits := word.drop 8
  if sameCharsIgnoringCase (word.take 8) "JOINTPOS".toList ∧ digits ≠ [] ∧ digits.all Char.isDigit
  then
    let n := digitsValue digits
    if 1 ≤ n ∧ n ≤ 9 then some n else none
  else none

/-- The type that a single word names: a built-in one, or else a user type. -/
def typeOfWord (word : String) (span : Span) : DataType :=
  match Scalar.all.find? fun s => sameIgnoringCase s.name word with
  | some s => .scalar span s
  | none =>
    if sameIgnoringCase word "JOINTPOS" then .jointPosition span none
    else match axes? word.toList with
      | some n => .jointPosition span (some n)
      | none => .named span word

/-- Names declared together: the names, where they are stored, and their type. -/
structure NameGroup where
  names : List (String × Span)
  storage : Option String
  type : DataType

/-- Makes one item for each name of each group; its span reaches from the name to the end of the
type. -/
def NameGroup.items {α : Type} (build : String → Option String → DataType → Span → α)
    (groups : List NameGroup) : List α :=
  groups.flatMap fun g => g.names.map fun (name, span) =>
    build name g.storage g.type (span.cover g.type.span)

/-- The size of an array in one dimension. -/
def arrayBound : Parser ArrayBound :=
  (punct '*' *> pure .unspecified) <|> (.fixed <$> expression)

section
variable (type : Parser DataType)

/-- `a, b : type`, with an optional storage before the colon. -/
def nameGroupOf : Parser NameGroup := do
  let names ← sepBy1 (punct ',') (lexeme name)
  let storage ← maybe (kw "IN" *> ident)
  punct ':'
  let type ← type
  return ⟨names, storage, type⟩

/-- `ARRAY[bounds] OF type`. -/
def arrayType : Parser (Span → DataType) := do
  kw "ARRAY"
  let bounds ← maybe do
    punct '['
    let bounds ← sepBy1 (punct ',') arrayBound
    punct ']'
    return bounds
  kw "OF"
  let element ← type
  return fun span => .array span (bounds.getD []) element

/-- `STRUCTURE fields ENDSTRUCTURE`. -/
def structureType : Parser (Span → DataType) := do
  kw "STRUCTURE"
  let groups ← many1 (nameGroupOf type)
  kw "ENDSTRUCTURE"
  let fields := NameGroup.items
    (fun name _ type span => (⟨name, type, span⟩ : StructureField DataType)) groups
  return fun span => .structure span fields

/-- `PATH PATHHEADER = type, NODEDATA = type`, where the header may be missing. -/
def pathType : Parser (Span → DataType) := do
  kw "PATH"
  let header ← maybe do
    kw "PATHHEADER"
    op "="
    let header ← type
    punct ','
    return header
  kw "NODEDATA"
  op "="
  let node ← type
  return fun span => .path span header node

/-- `STRING[length]`. -/
def stringType : Parser (Span → DataType) := do
  kw "STRING"
  punct '['
  let length ← expression
  let _ ← char ']'
  return fun span => .string span length

/-- A motion group, as in `POSITION IN GROUP[1]`. -/
def motionGroup : Parser Unit := do
  kw "IN"
  let _ ← keyword "GROUP"
  punct '['
  let _ ← expression
  punct ']'

/-- A type; a motion group behind it is read over. -/
def dataTypeOf : Parser DataType := do
  let (build, span) ← lexeme <|
    arrayType type <|> structureType type <|> pathType type <|> stringType <|>
    (typeOfWord <$> identifier)
  let _ ← maybe motionGroup
  return build span

end

/-- A type. -/
def dataType : Parser DataType := nested dataTypeOf

/-- Names declared together with their type. -/
def nameGroup : Parser NameGroup := nameGroupOf dataType

end RobotSource.Karel.Grammar
