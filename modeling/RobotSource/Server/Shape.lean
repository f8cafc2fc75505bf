import RobotSource.Document
import RobotSource.Listing.Layout
import RobotSource.Uri.Parse
/-!
# Shapes of message values

A message is understood if its values have the shapes that its method asks for. A record is an
object with the right members, whatever others it may have, or the array of its members in their
order; a member that may be absent may also be null.
-/

namespace RobotSource.Server

/-- A way to understand a value. -/
abbrev Shape (α : Type) := Json → Option α

namespace Shape

variable {α : Type}

/-! ## Plain values -/

/-- A text. -/
def text : Shape String := Json.string?

/-- A truth value. -/
def flag : Shape Bool := Json.bool?

/-- An integer of 32 bits with a sign. -/
def int32 : Shape Int
  | .integer n => if -0x80000000 ≤ n ∧ n < 0x80000000 then some n else none
  | _ => none

/-- An integer of 32 bits without a sign. -/
def unsigned32 : Shape Nat
  | .integer n => if 0 ≤ n ∧ n < 0x100000000 then some n.toNat else none
  | _ => none

/-- An address, as editors write it. -/
def address : Shape Uri := fun j =>
  j.string?.bind fun s => (Uri.ofClient s).toOption

/-- A list. -/
def list (shape : Shape α) : Shape (List α) := fun j =>
  j.array?.bind (·.mapM shape)

/-- A value or null. -/
def nullable (shape : Shape α) : Shape (Option α)
  | .null => some none
  | j => (shape j).map some

/-! ## Records -/

/-- The members of a record, which has no members but the given ones if it is an array. -/
def record (names : List String) : Shape Json
  | .object members => some (.object members)
  | .array items =>
    if items.length = names.length then some (.object (names.zip items)) else none
  | _ => none

/-- The members of a record that cannot be an array. -/
def object : Shape Json
  | .object members => some (.object members)
  | _ => none

/-- A member of a record. -/
def member (j : Json) (name : String) (shape : Shape α) : Option α :=
  (j.get? name).bind shape

/-- A member of a record that may be absent. -/
def member? (j : Json) (name : String) (shape : Shape α) : Option (Option α) :=
  match j.get? name with
  | some value => nullable shape value
  | none => some none

/-! ## Positions and documents -/

/-- A position. -/
def position : Shape Editor.Position := fun j => do
  let j ← record ["line", "character"] j
  return ⟨← member j "line" unsigned32, ← member j "character" unsigned32⟩

/-- A range. -/
def range : Shape Editor.Range := fun j => do
  let j ← record ["start", "end"] j
  return ⟨← member j "start" position, ← member j "end" position⟩

/-- The address of a document. -/
def documentAddress : Shape Uri := fun j => do
  let j ← record ["uri"] j
  member j "uri" address

/-- A change of a text. -/
def change : Shape Change := fun j => do
  let j ← record ["range", "rangeLength", "text"] j
  let _ ← member? j "rangeLength" unsigned32
  return ⟨← member? j "range" range, ← member j "text" text⟩

/-- Whether a value can name the progress of a request. -/
def progressName : Shape Unit
  | .string _ => some ()
  | j => (int32 j).map fun _ => ()

/-- The parameters of a request, whose progress may be named. -/
def requestMembers : Shape Json := fun j => do
  let j ← object j
  let _ ← member? j "workDoneToken" progressName
  return j

/-- The parameters of a request, whose results may also come in parts. -/
def streamedRequestMembers : Shape Json := fun j => do
  let j ← requestMembers j
  let _ ← member? j "partialResultToken" progressName
  return j

/-- A place in a document. -/
def documentPosition (j : Json) : Option (Uri × Editor.Position) := do
  return (← member j "textDocument" documentAddress, ← member j "position" position)

/-! ## Formatting -/

/-- A value that a formatting option without a meaning here may have. -/
def isFreeOption : Json → Bool
  | .bool _ => true
  | .string _ => true
  | j => (int32 j).isSome

/-- The formatting options that have a meaning. -/
def layoutNames : List String :=
  ["tabSize", "insertSpaces", "trimTrailingWhitespace", "insertFinalNewline", "trimFinalNewlines"]

/-- Formatting options. -/
def layoutOptions : Shape Listing.LayoutOptions := fun j => do
  let .object members := j | none
  guard (members.all fun (name, value) => layoutNames.contains name || isFreeOption value)
  let tabSize ← member j "tabSize" unsigned32
  let _ ← member j "insertSpaces" flag
  let _ ← member? j "trimTrailingWhitespace" flag
  let insertFinalNewline ← member? j "insertFinalNewline" flag
  let trimFinalNewlines ← member? j "trimFinalNewlines" flag
  return ⟨tabSize, insertFinalNewline.getD false, trimFinalNewlines.getD false⟩

end Shape

end RobotSource.Server
