import RobotSource.CommandLine.Run
import RobotSource.Json.Writer
import RobotSource.Server.Session
/-!
# The programs

One executable is both programs: under the name `server-tpkarel` it is the language server, under
any other the command line tool. Here bytes are read and written; everything else is decided by
`CommandLine.Command` and `Server`.
-/

namespace RobotSource

/-! ## Reading -/

/-- Everything that a stream still holds. -/
partial def readAll (stream : IO.FS.Stream) (read : ByteArray) : IO ByteArray := do
  let more ← stream.read 65536
  if more.isEmpty then return read else readAll stream (read ++ more)

/-- A given number of bytes, or fewer at the end of a stream. -/
partial def readBytes (stream : IO.FS.Stream) (count : Nat) (read : ByteArray) : IO ByteArray := do
  if count ≤ read.size then return read
  let more ← stream.read (USize.ofNat (count - read.size))
  if more.isEmpty then return read else readBytes stream count (read ++ more)

/-- The bytes of a file, if there is one. -/
def readFile? (path : String) : IO (Option (List UInt8)) := do
  try return some (← IO.FS.readBinFile path).toList
  catch _ => return none

/-- A file or folder with what is in it; only sources are read. -/
partial def readTree (path : String) : IO FileTree := do
  let entries ← try some <$> (← IO.FS.realPath path).readDir catch _ => pure none
  match entries with
  | some entries =>
    let mut folder := FileTree.empty
    for entry in entries do
      folder := folder.put (← readTree (FilePath.join path entry.fileName)) [entry.fileName]
    return folder
  | none =>
    if ((FilePath.extension? path).bind Language.ofExtension?).isSome then
      return .file ((← readFile? path).getD [])
    else return .file []

/-- The workspace folders on disk. -/
def readFolders (folders : List Uri) : IO FileTree := do
  let mut tree := FileTree.empty
  for path in folders.filterMap Uri.filePath? do
    tree := tree.put (← readTree path) (FilePath.parts path)
  return tree

/-! ## The command line tool -/

/-- Runs the command that the arguments give. -/
def runCommand (args : List String) : IO UInt32 := do
  let outcome ← match CommandLine.Command.ofArguments args with
    | .error refusal => pure refusal.outcome
    | .ok command =>
      match command.path? with
      | some path => command.run <$> readFile? path
      | none =>
        let bytes ← readAll (← IO.getStdin) .empty
        pure (command.run (some bytes.toList))
  (← IO.getStdout).putStr outcome.output
  (← IO.getStderr).putStr outcome.errors
  return UInt32.ofNat outcome.status

/-! ## The language server -/

/-- The length that a header line of a message gives. -/
def contentLength? (line : String) : Option Nat :=
  match (line.trimAscii.toString.splitOn ": ") with
  | [name, value] => if name.toLower = "content-length" then value.toNat? else none
  | _ => none

/-- The length of the next message; none at the end of a stream. -/
partial def readHeader (stream : IO.FS.Stream) (length : Option Nat) : IO (Option Nat) := do
  let line ← stream.getLine
  if line.isEmpty then return none
  if line.trimAscii.isEmpty then return length
  readHeader stream ((contentLength? line).or length)

/-- The next message. -/
def readMessage (stream : IO.FS.Stream) : IO (Option Json) := do
  match ← readHeader stream none with
  | none => return none
  | some length =>
    let bytes ← readBytes stream length .empty
    return (Text.decodeUtf8? bytes.toList).bind fun cs => Json.parse (String.ofList cs)

/-- Sends a message. -/
def send (stream : IO.FS.Stream) (message : Server.Outgoing) : IO Unit := do
  let .object members := message.toJson | return ()
  let text := (Json.object (("jsonrpc", .string "2.0") :: members)).write
  stream.putStr ("Content-Length: " ++ toString text.utf8ByteSize ++ "\r\n\r\n" ++ text)
  stream.flush

/-- Handles messages up to the last one. The folders are read again where a message may scan them.
-/
partial def serveMessages (input output : IO.FS.Stream) (s : Server) : IO Unit := do
  let some message := (← readMessage input).bind Server.Incoming.shape | return ()
  let files ← match message with
    | .notification _ _ => pure .empty
    | _ => readFolders s.workspace.folders
  let (s, sent) := s.step files message
  sent.forM (send output)
  unless Server.isLast message do serveMessages input output s

/-- Makes the file that a server logs to. -/
def makeLog (logging : Server.Logging) : IO Bool := do
  unless logging.enabled do return true
  try
    IO.FS.writeFile logging.path ""
    return true
  catch _ => return false

/-- Runs the language server. -/
def runServer (args : List String) : IO UInt32 := do
  let input ← IO.getStdin
  let output ← IO.getStdout
  let some logging := Server.Logging.ofArguments? {} args | return 1
  unless ← makeLog logging do return 1
  send output (.log "start initializing connection")
  let some (.request id "initialize" params) := (← readMessage input).bind Server.Incoming.shape
    | return 1
  let folders := ((Server.Client.shape params).bind (·.folders)).getD []
  let some (s, sent) := Server.welcome? (← readFolders folders) id params | return 1
  sent.forM (send output)
  let _ ← readMessage input
  serveMessages input output s
  return 0

end RobotSource

/-- The entry of both programs. -/
def main (args : List String) : IO UInt32 := do
  let program := (← IO.appPath).fileStem
  if program = some "server-tpkarel" then RobotSource.runServer args
  else RobotSource.runCommand args
