import RobotSource.Document
import RobotSource.Table
import RobotSource.Text.LetterCase
/-!
# Workspaces

A workspace holds the documents that the editor has opened and those that were found in its folders.
An opened document hides a known one of the same address. Both are indexed by the name by which
programs refer to each other, in lower case: each name lists the addresses of its documents in the
order in which they came.
-/

namespace RobotSource

open Text

/-- The documents of an editor. -/
structure Workspace where
  folders : List Uri
  /-- the unit of the places that the editor sends -/
  encoding : Encoding
  opened : Table Document
  known : Table Document
  /-- the addresses of a name -/
  names : Table (List String)

/-- Why a request cannot be answered. -/
inductive WorkspaceError where
  | notOpen (uri : Uri)
  | pathNotFound
deriving DecidableEq, Repr

/-- The wording of an error. -/
def WorkspaceError.message : WorkspaceError → String
  | .notOpen uri => "Document is not open: " ++ uri.text
  | .pathNotFound => "Path not found"

namespace Workspace

/-- A workspace without documents. -/
def empty : Workspace :=
  { folders := [], encoding := .utf16, opened := .empty, known := .empty, names := .empty }

/-! ## The index of names -/

/-- The key of an address in the index. -/
def nameKey (uri : Uri) : String := lower uri.bareName

/-- The addresses of a name, in any case. -/
def addresses (ws : Workspace) (name : String) : List String :=
  (ws.names.find? (lower name)).getD []

/-- Enters an address into the index. -/
def index (ws : Workspace) (uri : Uri) : Workspace :=
  let uris := (ws.names.find? (nameKey uri)).getD []
  let uris := if uris.contains uri.text then uris else uris ++ [uri.text]
  { ws with names := ws.names.insert (nameKey uri) uris }

/-- Takes an address out of the index. -/
def unindex (ws : Workspace) (uri : Uri) : Workspace :=
  match ws.names.find? (nameKey uri) with
  | none => ws
  | some uris =>
    match uris.filter (· != uri.text) with
    | [] => { ws with names := ws.names.erase (nameKey uri) }
    | rest => { ws with names := ws.names.insert (nameKey uri) rest }

/-! ## Changes -/

/-- Opens a document and parses it. -/
def openDocument (ws : Workspace) (d : Document) : Workspace × ParseStatus :=
  let (d, status) := d.parse
  ({ ws with opened := ws.opened.insert d.uri.text d }.index d.uri, status)

/-- Closes a document. A known one of its address shows again. -/
def close (ws : Workspace) (uri : Uri) : Workspace :=
  let closed := { ws with opened := ws.opened.erase uri.text }
  if ws.opened.contains uri.text && !ws.known.contains uri.text then closed.unindex uri
  else closed

/-- Adds a document that the editor has not opened, and parses it. -/
def addKnown (ws : Workspace) (d : Document) : Workspace × ParseStatus :=
  let (d, status) := d.parse
  ({ ws with known := ws.known.insert d.uri.text d }.index d.uri, status)

/-- The opened document of an address. -/
def entry (ws : Workspace) (uri : Uri) : Except WorkspaceError Document :=
  match ws.opened.find? uri.text with
  | some d => .ok d
  | none => .error (.notOpen uri)

/-- Follows the editor's changes to an opened document, in their order. -/
def applyEdit (ws : Workspace) (uri : Uri) (changes : List Change) :
    Except WorkspaceError Workspace := do
  let d ← ws.entry uri
  let d := changes.foldl (fun d change => d.applyChange ws.encoding change) d
  return { ws with opened := ws.opened.insert uri.text d }

/-- Notes the editor's version of an opened document. -/
def setVersion (ws : Workspace) (uri : Uri) (version : Int) : Workspace :=
  match ws.opened.find? uri.text with
  | some d => { ws with opened := ws.opened.insert uri.text { d with version := some version } }
  | none => ws

/-- Parses an opened document again. -/
def reparse (ws : Workspace) (uri : Uri) : Except WorkspaceError (Workspace × ParseStatus) := do
  let d ← ws.entry uri
  let (d, status) := d.parse
  return ({ ws with opened := ws.opened.insert uri.text d }, status)

/-! ## Lookups -/

/-- The document of an address, opened or known. -/
def get? (ws : Workspace) (uri : Uri) : Option Document :=
  (ws.opened.find? uri.text).or (ws.known.find? uri.text)

/-- Every document once, in the order of the addresses. -/
def documents (ws : Workspace) : List Document :=
  (ws.known.union ws.opened).values

/-- The document of a name, in any case; an opened one if there is one. -/
def find? (ws : Workspace) (name : String) : Option Document :=
  let uris := ws.addresses name
  (uris.findSome? ws.opened.find?).or (uris.findSome? ws.known.find?)

/-- The document of a name in a language; an opened one if there is one. -/
def findOf? (ws : Workspace) (name : String) (language : Language) : Option Document :=
  let uris := ws.addresses name
  ((uris.filterMap ws.opened.find?).find? (·.language == language)).or
    ((uris.filterMap ws.known.find?).find? (·.language == language))

/-- The line of an opened document's cursor up to the cursor. -/
def cursorLine (ws : Workspace) (uri : Uri) : Except WorkspaceError (Option String) := do
  let d ← ws.entry uri
  return d.cursorLine? ws.encoding

end Workspace

end RobotSource
