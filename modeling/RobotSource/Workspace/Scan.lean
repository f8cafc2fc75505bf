import RobotSource.Files.Glob
import RobotSource.Settings
import RobotSource.Workspace.Basic
/-!
# Scanning folders

A scan replaces the known documents by the sources that lie in the workspace folders. Each language
has a root of its own in a folder; where it is missing the whole folder is searched. A source that
cannot be read is passed over. A folder that is not in the file system stops the scan; what was
found before it stays.
-/

namespace RobotSource

open Files

/-! ## Reading a source -/

/-- Why a source cannot be read. -/
inductive LoadError where
  | notFound
  | isFolder
  | notText
deriving DecidableEq, Repr

/-- The wording of an error. -/
def LoadError.message : LoadError → String
  | .notFound => "Path not found"
  | .isFolder => "Is a directory (os error 21)"
  | .notText => "stream did not contain valid UTF-8"

/-- The address and the text of a file. -/
def loadSource (files : FileTree) (path : String) : Except LoadError (Uri × String) :=
  match files.lookup? path, files.canonical? path with
  | some (.folder _), _ => .error .isFolder
  | some (.file content), some canonical =>
    match Text.decodeUtf8? content with
    | some text => .ok (Uri.ofFilePath canonical, String.ofList text)
    | none => .error .notText
  | _, _ => .error .notFound

namespace Workspace

/-! ## Scans -/

/-- Forgets the known documents. Those that are open stay in the index. -/
def forgetKnown (ws : Workspace) : Workspace :=
  ws.known.values.foldl
    (fun ws d => if ws.opened.contains d.uri.text then ws else ws.unindex d.uri)
    { ws with known := .empty }

/-- Adds the sources of a language below a folder. -/
def scanFolder (files : FileTree) (ws : Workspace) (folder : String) (language : Language) :
    Workspace :=
  let pattern := FilePath.join (FilePath.join folder "**") ("*." ++ language.extension)
  (glob files pattern).foldl
    (fun ws path =>
      match loadSource files path with
      | .ok (uri, text) => (ws.addKnown (.ofText uri language text none)).1
      | .error _ => ws)
    ws

/-- The place of a language's sources in a folder. -/
def languageRoot (files : FileTree) (base root : String) : String :=
  let inner := FilePath.join base root
  if files.hasFolder inner then inner else base

/-- Adds the sources of both languages in the given folders. -/
def scanFolders (files : FileTree) (settings : Settings) (ws : Workspace) :
    List Uri → Workspace × Except WorkspaceError Unit
  | [] => (ws, .ok ())
  | folder :: rest =>
    match folder.filePath? with
    | none => (ws, .error .pathNotFound)
    | some base =>
      let ws := scanFolder files ws (languageRoot files base settings.pendantRoot) .pendant
      let ws := scanFolder files ws (languageRoot files base settings.karelRoot) .karel
      scanFolders files settings ws rest

/-- Replaces the known documents by the sources in the given folders. -/
def scan (ws : Workspace) (files : FileTree) (folders : List Uri) (settings : Settings) :
    Workspace × Except WorkspaceError Unit :=
  scanFolders files settings { ws with folders }.forgetKnown folders

end Workspace

end RobotSource
