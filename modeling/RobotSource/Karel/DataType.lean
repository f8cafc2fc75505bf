import RobotSource.Karel.Expression
/-!
# Karel data types

A type is a scalar, a string of a given length, the name of a user type, an array, a structure or a
path. A name declared together with others shares their type, so a field spans from its own name to
the end of the type.
-/

namespace RobotSource.Karel

/-- The built-in types without parts. -/
inductive Scalar where
  | integer
  | real
  | boolean
  | position
  | xyzwpr
  | xyzwprExt
  | vector
  | config
  | file
  | short
  | byte
deriving DecidableEq, Repr

/-- The name of a scalar type. -/
def Scalar.name : Scalar → String
  | .integer => "INTEGER"
  | .real => "REAL"
  | .boolean => "BOOLEAN"
  | .position => "POSITION"
  | .xyzwpr => "XYZWPR"
  | .xyzwprExt => "XYZWPREXT"
  | .vector => "VECTOR"
  | .config => "CONFIG"
  | .file => "FILE"
  | .short => "SHORT"
  | .byte => "BYTE"

/-- Every scalar type. -/
def Scalar.all : List Scalar :=
  [.integer, .real, .boolean, .position, .xyzwpr, .xyzwprExt, .vector, .config, .file, .short,
   .byte]

/-- The extent of an array in one dimension. -/
inductive ArrayBound where
  | fixed (size : Expr)
  /-- `*`, the size is set elsewhere -/
  | unspecified
deriving Repr

/-- A field of a structure, for a given notion of type. -/
structure StructureField (τ : Type) where
  name : String
  type : τ
  span : Span
deriving Repr

/-- A data type. -/
inductive DataType where
  | scalar (span : Span) (kind : Scalar)
  /-- `JOINTPOS`, or `JOINTPOS1` to `JOINTPOS9` for a number of axes -/
  | jointPosition (span : Span) (axes : Option Nat)
  | string (span : Span) (length : Expr)
  /-- a user type -/
  | named (span : Span) (name : String)
  | array (span : Span) (bounds : List ArrayBound) (element : DataType)
  | structure (span : Span) (fields : List (StructureField DataType))
  | path (span : Span) (header : Option DataType) (node : DataType)
deriving Repr

namespace DataType

/-- The span of a type. -/
def span : DataType → Span
  | .scalar s _ => s
  | .jointPosition s _ => s
  | .string s _ => s
  | .named s _ => s
  | .array s _ _ => s
  | .structure s _ => s
  | .path s _ _ => s

/-- The printed form of an array bound. -/
def boundText : ArrayBound → String
  | .fixed size => size.text
  | .unspecified => "*"

/-- The printed form of a type. A structure is summed up by the number of its fields. -/
def text : DataType → String
  | .scalar _ s => s.name
  | .jointPosition _ none => "JOINTPOS"
  | .jointPosition _ (some axes) => "JOINTPOS" ++ toString axes
  | .string _ length => "STRING[" ++ length.text ++ "]"
  | .named _ name => name
  | .array _ bounds element =>
    "ARRAY[" ++ ",".intercalate (bounds.map boundText) ++ "] OF " ++ text element
  | .structure _ fields => "STRUCTURE (" ++ toString fields.length ++ " fields)"
  | .path _ _ node => "PATH NODEDATA = " ++ text node

end DataType

end RobotSource.Karel
