import RobotSource.Diagnostics
import RobotSource.Server.Shape
/-!
# Messages

What an editor sends: requests, which are answered by their identifier, notifications, and responses
to the server's own requests. What the server sends: the same three, as far as it needs them.
-/

namespace RobotSource.Server

/-! ## Identifiers -/

/-- What tells requests apart. -/
inductive RequestId where
  | number (n : Int)
  | name (s : String)
deriving DecidableEq, Repr

namespace RequestId

/-- An identifier in a message. -/
def shape : Shape RequestId
  | .string s => some (.name s)
  | j => (Shape.int32 j).map .number

/-- The identifier as a message holds it. -/
def toJson : RequestId → Json
  | .number n => .integer n
  | .name s => .string s

/-- A character within quotes. -/
def quoteChar (c : Char) : String :=
  match c with
  | '"' => "\\\""
  | '\\' => "\\\\"
  | '\n' => "\\n"
  | '\r' => "\\r"
  | '\t' => "\\t"
  | '\x00' => "\\0"
  | c =>
    if c.toNat < 0x20 ∨ 0x7f ≤ c.toNat ∧ c.toNat < 0xa0 then
      "\\u\x7b" ++ String.ofList (Nat.toDigits 16 c.toNat) ++ "\x7d"
    else String.singleton c

/-- The identifier within a text; a name stands in quotes. -/
def text : RequestId → String
  | .number n => toString n
  | .name s => "\"" ++ String.join (s.toList.map quoteChar) ++ "\""

end RequestId

/-! ## Incoming messages -/

/-- A message from the editor. -/
inductive Incoming where
  | request (id : RequestId) (method : String) (params : Json)
  | response (id : RequestId) (result : Option Json)
  | notification (method : String) (params : Json)

namespace Incoming

/-- The error of a response. -/
def errorShape : Shape Unit := fun j => do
  let j ← Shape.record ["code", "message", "data"] j
  let _ ← Shape.member j "code" Shape.int32
  let _ ← Shape.member j "message" Shape.text
  return ()

/-- A request: it has an identifier and a method. -/
def requestShape : Shape Incoming := fun j => do
  let id ← Shape.member j "id" RequestId.shape
  let method ← Shape.member j "method" Shape.text
  return .request id method ((j.get? "params").getD .null)

/-- A response: it has an identifier. -/
def responseShape : Shape Incoming := fun j => do
  let id ← Shape.member j "id" RequestId.shape
  let result ← Shape.member? j "result" some
  let _ ← Shape.member? j "error" errorShape
  return .response id result

/-- A notification: it has a method. -/
def notificationShape : Shape Incoming := fun j => do
  let method ← Shape.member j "method" Shape.text
  return .notification method ((j.get? "params").getD .null)

/-- The message that a value holds: the first of the three that it can be. -/
def shape : Shape Incoming := fun j =>
  (requestShape j).or ((responseShape j).or (notificationShape j))

end Incoming

/-! ## Outgoing messages -/

/-- Why a request fails. -/
inductive Failure where
  | notUnderstood
  | invalidParameters
  | internal
deriving DecidableEq, Repr

/-- The number of a failure. -/
def Failure.code : Failure → Int
  | .notUnderstood => -32700
  | .invalidParameters => -32602
  | .internal => -32603

/-- A message from the server. -/
inductive Outgoing where
  | log (message : String)
  | diagnostics (uri : Uri) (version : Option Int) (items : List Editor.Diagnostic)
  | result (id : RequestId) (value : Json)
  | failure (id : RequestId) (kind : Failure) (message : String)
  | request (id : String) (method : String) (params : Json)

/-- How a message is written. -/
def Outgoing.toJson : Outgoing → Json
  | .log message =>
    .object [("method", .string "window/logMessage"),
      ("params", .object [("type", .nat 4), ("message", .string message)])]
  | .diagnostics uri version items =>
    .object [("method", .string "textDocument/publishDiagnostics"),
      ("params", .ofMembers [("uri", some (.string uri.text)),
        ("diagnostics", some (.array (items.map (·.toJson)))), ("version", version.map .integer)])]
  | .result id value => .object [("id", id.toJson), ("result", value)]
  | .failure id kind message =>
    .object [("id", id.toJson), ("error", .object [("code", .integer kind.code),
      ("message", .string message)])]
  | .request id method params =>
    .object [("id", .string id), ("method", .string method), ("params", params)]

end RobotSource.Server
