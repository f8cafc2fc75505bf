import RobotSource.Completion.Items
import RobotSource.Formatting
import RobotSource.Hover
import RobotSource.Server.Query
import RobotSource.Symbols
import RobotSource.Workspace.Scan
/-!
# The language server

The server keeps a workspace and settings, and answers the editor's messages one after the other. It
publishes the diagnostics of a document after every parse of it: when it is opened, when it changes,
and when a command asks for it. Closing a document takes its diagnostics back.
-/

namespace RobotSource

/-- The state of a language server. -/
structure Server where
  settings : Settings
  workspace : Workspace

namespace Server

/-- The state before the first message. -/
def start : Server := ⟨{}, .empty⟩

/-- The server's request for the settings. -/
def configurationRequest : Outgoing :=
  .request "tpkarel-pull-config" "workspace/configuration"
    (.object [("items", .array [.object [("section", .string "tpkarel")]])])

/-- What is published after a parse of an opened document. -/
def publishStatus (s : Server) (uri : Uri) (status : ParseStatus) : List Outgoing :=
  match s.workspace.opened.find? uri.text with
  | none => []
  | some d =>
    let published := .diagnostics uri d.version (statusDiagnostics status d.text)
    match status with
    | .ok () => [published]
    | .error e => [.log (uri.text ++ " did not parse: " ++ e.render), published]

/-- Scans the workspace folders again. -/
def rescan (files : FileTree) (s : Server) : Server × List Outgoing :=
  let folders := s.workspace.folders
  match s.workspace.scan files folders s.settings with
  | (workspace, .ok ()) =>
    ({ s with workspace }, [.log ("scanned " ++ toString folders.length ++ " workspace folders")])
  | (workspace, .error e) =>
    ({ s with workspace }, [.log ("workspace scan failed: " ++ e.message)])

/-! ## Notifications -/

/-- Opens a document. Its language is named, or follows from its address. -/
def opened (s : Server) (uri : Uri) (languageName : String) (version : Int) (text : String) :
    Server × List Outgoing :=
  match (Language.ofName? languageName).or uri.language? with
  | none => (s, [.log ("no language for " ++ uri.text)])
  | some language =>
    let (workspace, status) :=
      s.workspace.openDocument (.ofText uri language text (some version))
    let s := { s with workspace }
    (s, s.publishStatus uri status)

/-- Closes a document. -/
def closed (s : Server) (uri : Uri) : Server × List Outgoing :=
  ({ s with workspace := s.workspace.close uri }, [.diagnostics uri none []])

/-- Follows the changes to a document, and parses it again. -/
def changed (s : Server) (uri : Uri) (version : Int) (changes : List Change) :
    Server × List Outgoing :=
  match s.workspace.applyEdit uri changes with
  | .error e => (s, [.log ("could not apply changes: " ++ e.message)])
  | .ok workspace =>
    let workspace := workspace.setVersion uri version
    match workspace.reparse uri with
    | .error e => ({ s with workspace }, [.log ("could not parse: " ++ e.message)])
    | .ok (workspace, status) =>
      let s := { s with workspace }
      (s, s.publishStatus uri status)

/-- Handles a notification. -/
def notify (s : Server) : Notification → Server × List Outgoing
  | .configurationChanged => (s, [configurationRequest])
  | .opened uri languageName version text => s.opened uri languageName version text
  | .closed uri => s.closed uri
  | .changed uri version changes => s.changed uri version changes
  | .canceled id => (s, [.log ("request " ++ id.text ++ " was canceled")])
  | .traceSet => (s, [.log "ignoring the SetTrace notification"])
  | .filesChanged => (s, [.log "ignoring the DidChangeWatchedFiles notification"])
  | .malformed => (s, [])
  | .other method => (s, [.log ("unhandled notification " ++ method)])

/-! ## Requests -/

/-- The answer to a question about the workspace. -/
def respond {α : Type} (id : RequestId) (encode : α → Json) :
    Except WorkspaceError α → Outgoing
  | .ok a => .result id (encode a)
  | .error e => .failure id .internal e.message

/-- The symbols of an opened document; none if it has not been parsed. -/
def symbolsOf (s : Server) (uri : Uri) : Except WorkspaceError (List Editor.Symbol) := do
  let d ← s.workspace.entry uri
  return (d.source.map documentSymbols).getD []

/-- Parses a document again because a command asks for it. -/
def reparse (s : Server) (id : RequestId) : Option Uri → Server × List Outgoing
  | none => (s, [.failure id .invalidParameters "expected a document URI"])
  | some uri =>
    match s.workspace.reparse uri with
    | .error e => (s, [.failure id .invalidParameters e.message])
    | .ok (workspace, status) =>
      let s := { s with workspace }
      (s, s.publishStatus uri status ++ [.result id .null])

/-- A list of values. -/
def listJson {α : Type} (encode : α → Json) (items : List α) : Json :=
  .array (items.map encode)

/-- A value, or null. -/
def optionJson {α : Type} (encode : α → Json) (value : Option α) : Json :=
  .orNull (value.map encode)

/-- Answers a request. -/
def answer (files : FileTree) (s : Server) (id : RequestId) (method : String) :
    Query → Server × List Outgoing
  | .shutdown => (s, [.log "shutdown request", .result id .null])
  | .completion uri place =>
    (s, [respond id (listJson Editor.Completion.toJson)
      (Completion.atPosition s.settings s.workspace uri place)])
  | .hover uri place =>
    (s, [respond id (optionJson Editor.Hover.toJson) (hover s.workspace uri place)])
  | .definition uri place =>
    (s, [respond id (optionJson Editor.Location.toJson) (definition s.workspace uri place)])
  | .symbols uri => (s, [respond id (listJson Editor.Symbol.toJson) (s.symbolsOf uri)])
  | .formatting uri options =>
    (s, [respond id (listJson Editor.TextEdit.toJson)
      (formatDocument s.settings s.workspace uri options)])
  | .rescan =>
    let (s, logs) := s.rescan files
    (s, logs ++ [.result id .null])
  | .reparse uri => s.reparse id uri
  | .unknownCommand name => (s, [.log ("unhandled command " ++ name), notUnderstood])
  | .malformed => (s, [notUnderstood])
  | .other => (s, [.log ("unhandled request: " ++ method), notUnderstood])
where
  notUnderstood : Outgoing :=
    .failure id .notUnderstood ("request " ++ id.text ++ " (" ++ method ++ ") not understood")

/-! ## Responses -/

/-- Takes over new settings. The folders are scanned again if a root of sources changes. -/
def configure (files : FileTree) (s : Server) (settings : Settings) : Server × List Outgoing :=
  let changed := settings.pendantRoot ≠ s.settings.pendantRoot ∨
    settings.karelRoot ≠ s.settings.karelRoot
  let s := { s with settings }
  if changed then
    let (s, logs) := s.rescan files
    (s, .log "source roots changed, rescanning" :: logs)
  else (s, [])

/-- Handles the response to one of the server's own requests. -/
def receive (files : FileTree) (s : Server) (id : RequestId) (result : Option Json) :
    Server × List Outgoing :=
  match id with
  | .name "tpkarel-pull-config" =>
    match result with
    | some (.array (item :: _)) => s.configure files (Settings.ofJson item)
    | _ => (s, [.log "could not parse config"])
  | .name "tpkarel-reg-config" => (s, [.log "registration response was received"])
  | id => (s, [.log ("unhandled response: " ++ id.text)])

/-! ## Messages -/

/-- Handles a message. -/
def step (files : FileTree) (s : Server) : Incoming → Server × List Outgoing
  | .request id method params => s.answer files id method (Query.read method params)
  | .response id result => s.receive files id result
  | .notification method params => s.notify (Notification.read method params)

/-- Whether a message is the last one: the server ends behind it. -/
def isLast : Incoming → Bool
  | .request _ method _ => method == "shutdown"
  | .notification method _ => method == "exit"
  | .response _ _ => false

/-- Handles messages up to the last one, or to one that is no message. -/
def run (files : FileTree) (s : Server) : List Json → List Outgoing
  | [] => []
  | j :: js =>
    match Incoming.shape j with
    | none => []
    | some message =>
      let (s, sent) := s.step files message
      if isLast message then sent else sent ++ run files s js

end Server

end RobotSource
