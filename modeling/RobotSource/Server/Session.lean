import RobotSource.Server.Basic
/-!
# Starting a server

The arguments of the server say where it logs to; a server that cannot log does not start. The first
message of the editor says which places it can send and which folders it works in. The server
answers with what it can do, asks for its settings, and scans the folders.
-/

namespace RobotSource.Server

open Text

/-! ## Arguments -/

/-- How much is logged, and where. -/
structure Logging where
  enabled : Bool := false
  path : String := "tpkarel_log.txt"
deriving DecidableEq, Repr

/-- Whether a level of logging logs anything; none if there is no such level. -/
def logLevel? (name : String) : Option Bool :=
  if sameIgnoringCase name "off" then some false
  else if ["error", "warn", "info", "debug", "trace"].any (sameIgnoringCase name) then some true
  else none

/-- Reads the arguments. Those without a meaning, and a last one without its value, are ignored. -/
def Logging.ofArguments? (logging : Logging) : List String → Option Logging
  | "--log-level" :: value :: rest =>
    (logLevel? value).bind fun enabled => { logging with enabled }.ofArguments? rest
  | "--log-file" :: path :: rest => { logging with path }.ofArguments? rest
  | _ :: rest => logging.ofArguments? rest
  | [] => some logging

/-- Whether a file can be made at a path. A path that does not begin at the root is taken to lie in
a folder that is there. -/
def canCreate (files : FileTree) (path : String) : Bool :=
  if FilePath.isAbsolute path then
    let folder := (path.toList.reverse.dropWhile (· != '/')).reverse
    files.hasFolder (String.ofList folder) && (files.lookup? path).all (!·.isFolder) &&
      path.toList.getLast? ≠ some '/'
  else path ≠ ""

/-- Whether a server with these arguments starts. -/
def starts (files : FileTree) (args : List String) : Bool :=
  match Logging.ofArguments? {} args with
  | some logging => !logging.enabled || canCreate files logging.path
  | none => false

/-! ## The first message -/

/-- What the editor says about itself. -/
structure Client where
  encoding : Encoding
  /-- whether it can be asked for settings -/
  configuration : Bool
  folders : Option (List Uri)

/-- A workspace folder. -/
def folderShape : Shape Uri := fun j => do
  let j ← Shape.record ["uri", "name"] j
  let _ ← Shape.member j "name" Shape.text
  Shape.member j "uri" Shape.address

/-- The name and version of an editor. -/
def clientInfoShape : Shape Unit := fun j => do
  let j ← Shape.record ["name", "version"] j
  let _ ← Shape.member j "name" Shape.text
  let _ ← Shape.member? j "version" Shape.text
  return ()

/-- The encodings of places that an editor offers. -/
def encodingsShape : Shape (List String) := fun j => do
  let j ← Shape.object j
  return (← Shape.member? j "positionEncodings" (Shape.list Shape.text)).getD []

/-- Whether an editor can be asked for settings. -/
def configurationShape : Shape Bool := fun j => do
  let j ← Shape.object j
  return (← Shape.member? j "configuration" Shape.flag).getD false

/-- The parameters of the first message. -/
def Client.shape : Shape Client := fun j => do
  let j ← Shape.object j
  let _ ← Shape.member? j "processId" Shape.unsigned32
  let _ ← Shape.member? j "rootPath" Shape.text
  let _ ← Shape.member? j "rootUri" Shape.address
  let _ ← Shape.member? j "trace" Notification.traceName
  let _ ← Shape.member? j "clientInfo" clientInfoShape
  let _ ← Shape.member? j "locale" Shape.text
  let capabilities ← Shape.member j "capabilities" Shape.object
  let encodings := (← Shape.member? capabilities "general" encodingsShape).getD []
  let configuration := (← Shape.member? capabilities "workspace" configurationShape).getD false
  let folders ← Shape.member? j "workspaceFolders" (Shape.list folderShape)
  return {
    encoding := if encodings.contains "utf-32" then .utf32 else .utf16
    configuration, folders }

/-- The name of an encoding. -/
def encodingName : Encoding → String
  | .utf16 => "utf-16"
  | .utf32 => "utf-32"

/-- What the server can do. -/
def capabilities (encoding : Encoding) : Json :=
  let texts (items : List String) : Json := .array (items.map .string)
  .object [
    ("positionEncoding", .string (encodingName encoding)),
    ("textDocumentSync", .object [("openClose", .bool true), ("change", .nat 2)]),
    ("hoverProvider", .bool true),
    ("completionProvider", .object [("resolveProvider", .bool false),
      ("triggerCharacters", texts [" ", "$", "[", "]", "."])]),
    ("definitionProvider", .bool true),
    ("documentSymbolProvider", .bool true),
    ("documentFormattingProvider", .bool true),
    ("executeCommandProvider", .object [
      ("commands", texts ["tpkarel.rescan", "tpkarel.reparse"])])]

/-- The answer to the first message. -/
def greeting (encoding : Encoding) : Json :=
  .object [("capabilities", capabilities encoding),
    ("serverInfo", .object [("name", .string "tpkarel"), ("version", .string "0.1.0")])]

/-- Asks the editor to tell about changes of its settings, if it can. -/
def registrationRequest (configuration : Bool) : Outgoing :=
  let registrations := if configuration then
      [Json.object [("id", .string "pull-config"),
        ("method", .string "workspace/didChangeConfiguration")]]
    else []
  .request "tpkarel-reg-config" "client/registerCapability"
    (.object [("registrations", .array registrations)])

/-- The state behind the first message, and what is sent with it. -/
def welcome? (files : FileTree) (id : RequestId) (params : Json) :
    Option (Server × List Outgoing) := do
  let client ← Client.shape params
  let s : Server := { start with workspace := { Workspace.empty with encoding := client.encoding } }
  let greetings := [.result id (greeting client.encoding), .log "connection initialized",
    registrationRequest client.configuration, configurationRequest]
  match client.folders with
  | none => return (s, greetings)
  | some folders =>
    let (s, logs) := { s with workspace := { s.workspace with folders } }.rescan files
    return (s, greetings ++ logs)

/-- Everything that a server sends from its start: the editor's first message and those behind it
are given. -/
def serve (files : FileTree) (args : List String) (id : RequestId) (params : Json)
    (messages : List Json) : List Outgoing :=
  if starts files args then
    .log "start initializing connection" ::
      match welcome? files id params with
      | some (s, sent) => sent ++ s.run files messages
      | none => []
  else []

end RobotSource.Server
