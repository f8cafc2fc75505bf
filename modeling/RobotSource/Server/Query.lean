import RobotSource.Server.Message
/-!
# Requests and notifications by their meaning

`Notification.read` and `Query.read` find out what a method asks for. Parameters of the wrong shape
make a notification that is ignored, or a request that is not understood.
-/

namespace RobotSource.Server

/-! ## Notifications -/

/-- What a notification says. -/
inductive Notification where
  | configurationChanged
  | opened (uri : Uri) (languageName : String) (version : Int) (text : String)
  | closed (uri : Uri)
  | changed (uri : Uri) (version : Int) (changes : List Change)
  | canceled (id : RequestId)
  | traceSet
  | filesChanged
  /-- a method that is known, with parameters of the wrong shape -/
  | malformed
  | other (method : String)

namespace Notification

/-- The document that was opened. -/
def openedShape : Shape Notification := fun j => do
  let j ← Shape.record ["textDocument"] j
  let d ← Shape.member j "textDocument" (Shape.record ["uri", "languageId", "version", "text"])
  return .opened (← Shape.member d "uri" Shape.address) (← Shape.member d "languageId" Shape.text)
    (← Shape.member d "version" Shape.int32) (← Shape.member d "text" Shape.text)

/-- The document that was closed. -/
def closedShape : Shape Notification := fun j => do
  let j ← Shape.record ["textDocument"] j
  return .closed (← Shape.member j "textDocument" Shape.documentAddress)

/-- The changes to a document. -/
def changedShape : Shape Notification := fun j => do
  let j ← Shape.record ["textDocument", "contentChanges"] j
  let d ← Shape.member j "textDocument" (Shape.record ["uri", "version"])
  return .changed (← Shape.member d "uri" Shape.address) (← Shape.member d "version" Shape.int32)
    (← Shape.member j "contentChanges" (Shape.list Shape.change))

/-- The request that was canceled. -/
def canceledShape : Shape Notification := fun j => do
  let j ← Shape.record ["id"] j
  return .canceled (← Shape.member j "id" RequestId.shape)

/-- How much is to be traced. -/
def traceName : Shape Unit := fun j => do
  guard (["off", "messages", "verbose"].contains (← j.string?))

/-- The trace that was set. -/
def traceShape : Shape Notification := fun j => do
  let j ← Shape.record ["value"] j
  let _ ← Shape.member j "value" traceName
  return .traceSet

/-- A file that changed. -/
def fileShape : Shape Unit := fun j => do
  let j ← Shape.record ["uri", "type"] j
  let _ ← Shape.member j "uri" Shape.address
  let _ ← Shape.member j "type" Shape.int32
  return ()

/-- The files that changed. -/
def filesShape : Shape Notification := fun j => do
  let j ← Shape.record ["changes"] j
  let _ ← Shape.member j "changes" (Shape.list fileShape)
  return .filesChanged

/-- What a notification says. -/
def read (method : String) (params : Json) : Notification :=
  match method with
  | "workspace/didChangeConfiguration" => .configurationChanged
  | "textDocument/didOpen" => (openedShape params).getD .malformed
  | "textDocument/didClose" => (closedShape params).getD .malformed
  | "textDocument/didChange" => (changedShape params).getD .malformed
  | "$/cancelRequest" => (canceledShape params).getD .malformed
  | "$/setTrace" => (traceShape params).getD .malformed
  | "workspace/didChangeWatchedFiles" => (filesShape params).getD .malformed
  | method => .other method

end Notification

/-! ## Requests -/

/-- What a request asks for. -/
inductive Query where
  | shutdown
  | completion (uri : Uri) (place : Editor.Position)
  | hover (uri : Uri) (place : Editor.Position)
  | definition (uri : Uri) (place : Editor.Position)
  | symbols (uri : Uri)
  | formatting (uri : Uri) (options : Listing.LayoutOptions)
  | rescan
  /-- without an address if the argument is none -/
  | reparse (uri : Option Uri)
  | unknownCommand (name : String)
  /-- a method that is known, with parameters of the wrong shape -/
  | malformed
  | other

namespace Query

/-- How a completion was asked for. -/
def contextShape : Shape Unit := fun j => do
  let j ← Shape.record ["triggerKind", "triggerCharacter"] j
  let _ ← Shape.member j "triggerKind" Shape.int32
  let _ ← Shape.member? j "triggerCharacter" Shape.text
  return ()

/-- The parameters of a completion. -/
def completionShape : Shape Query := fun j => do
  let j ← Shape.streamedRequestMembers j
  let (uri, place) ← Shape.documentPosition j
  let _ ← Shape.member? j "context" contextShape
  return .completion uri place

/-- The parameters of a hover. -/
def hoverShape : Shape Query := fun j => do
  let (uri, place) ← Shape.documentPosition (← Shape.requestMembers j)
  return .hover uri place

/-- The parameters of a definition. -/
def definitionShape : Shape Query := fun j => do
  let (uri, place) ← Shape.documentPosition (← Shape.streamedRequestMembers j)
  return .definition uri place

/-- The parameters of a request for symbols. -/
def symbolsShape : Shape Query := fun j => do
  let j ← Shape.streamedRequestMembers j
  return .symbols (← Shape.member j "textDocument" Shape.documentAddress)

/-- The parameters of a request for formatting. -/
def formattingShape : Shape Query := fun j => do
  let j ← Shape.requestMembers j
  return .formatting (← Shape.member j "textDocument" Shape.documentAddress)
    (← Shape.member j "options" Shape.layoutOptions)

/-- A command and its arguments. -/
def commandShape : Shape Query := fun j => do
  let j ← Shape.requestMembers j
  let command ← Shape.member j "command" Shape.text
  let arguments ← match j.get? "arguments" with
    | some value => value.array?
    | none => some []
  match command with
  | "tpkarel.rescan" => return .rescan
  | "tpkarel.reparse" => return .reparse (arguments.head?.bind Shape.address)
  | name => return .unknownCommand name

/-- What a request asks for. -/
def read (method : String) (params : Json) : Query :=
  match method with
  | "shutdown" => .shutdown
  | "textDocument/completion" => (completionShape params).getD .malformed
  | "textDocument/hover" => (hoverShape params).getD .malformed
  | "textDocument/definition" => (definitionShape params).getD .malformed
  | "textDocument/documentSymbol" => (symbolsShape params).getD .malformed
  | "textDocument/formatting" => (formattingShape params).getD .malformed
  | "workspace/executeCommand" => (commandShape params).getD .malformed
  | _ => .other

end Query

end RobotSource.Server
