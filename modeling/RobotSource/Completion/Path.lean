import RobotSource.Editor.Answer
import RobotSource.Karel.Program
/-!
# Variable paths

A path such as `REC.PARTS[2].X` leads from a variable of a Karel program through the fields of
structures; a segment with a subscript steps on to the elements of an array. The names of types are
followed to what they stand for, up to a limit that a cycle of names runs into.
-/

namespace RobotSource.Completion

open Text Karel

/-! ## Types -/

/-- How many types are looked at on the way from a name to what it stands for. -/
def typeDepth : Nat := 16

/-- The type that a type stands for, looking at no more types than `depth`. -/
def resolveWithin (p : Program) : (depth : Nat) → DataType → Option DataType
  | 0, _ => none
  | depth + 1, .named _ name => (p.findType? name).bind fun t => resolveWithin p depth t.type
  | _ + 1, type => some type

/-- The type that a type stands for. -/
def resolveType (p : Program) (type : DataType) : Option DataType :=
  resolveWithin p typeDepth type

/-- The type of the elements of an array. -/
def elementType? (p : Program) (type : DataType) : Option DataType :=
  match resolveType p type with
  | some (.array _ _ element) => some element
  | _ => none

/-- The fields of a structure. -/
def fields? (p : Program) (type : DataType) : Option (List (StructureField DataType)) :=
  match resolveType p type with
  | some (.structure _ fields) => some fields
  | _ => none

/-! ## Segments -/

/-- A segment of a path: a name, and whether a subscript follows it. -/
structure Segment where
  name : String
  subscripted : Bool
deriving DecidableEq, Repr

/-- Cuts off the subscript at the end of a segment. -/
def Segment.ofChars (cs : List Char) : Segment :=
  match cs.reverse with
  | ']' :: before =>
    let inner := (before.takeWhile (· != ']')).reverse
    let outer := (before.dropWhile (· != ']')).reverse
    if inner.contains '[' then ⟨String.ofList (outer ++ inner.takeWhile (· != '[')), true⟩
    else ⟨String.ofList cs, false⟩
  | _ => ⟨String.ofList cs, false⟩

/-- The type behind a subscript, if there is one. -/
def Segment.step? (p : Program) (s : Segment) (type : DataType) : Option DataType :=
  if s.subscripted then elementType? p type else some type

/-- The type of the variable that begins a path. -/
def firstType? (p : Program) (s : Segment) : Option DataType :=
  (p.findVariable? s.name).bind fun v => s.step? p v.type

/-- The type of a field. -/
def fieldType? (p : Program) (type : DataType) (s : Segment) : Option DataType := do
  let fields ← fields? p type
  let field ← fields.find? fun f => sameIgnoringCase f.name s.name
  s.step? p field.type

/-- The type to which a path leads. -/
def pathType? (p : Program) : List Segment → Option DataType
  | [] => none
  | first :: rest => (firstType? p first).bind fun type => rest.foldlM (fieldType? p) type

/-! ## Items -/

/-- The item of a variable or field. That of an array asks for an index. -/
def pathItem (p : Program) (kind : Editor.CompletionKind) (name : String) (type : DataType) :
    Editor.Completion :=
  { label := name
    kind
    detail := some type.text
    documentation := none
    insertion := some (if (elementType? p type).isSome then .template (name ++ "[$\x7b1:index\x7d]")
      else .plain name) }

/-- The items of a path whose last segment is still being typed: the variables of the program, or
the fields of the structure to which the segments before it lead. -/
def pathItems (p : Program) (segments : List (List Char)) : List Editor.Completion :=
  match segments.dropLast with
  | [] => p.vars.map fun v => pathItem p .variable v.name v.type
  | walked =>
    match (pathType? p (walked.map Segment.ofChars)).bind (fields? p) with
    | some fields => fields.map fun f => pathItem p .field f.name f.type
    | none => []

end RobotSource.Completion
