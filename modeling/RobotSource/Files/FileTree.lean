import RobotSource.FilePath
import RobotSource.Text.Utf8
/-!
# Files and folders

The files that programs are read from, as a tree. The entries of a folder are kept in the order of
their names. A path is followed part by part from the root; two dots lead back to the folder above,
which is there only if the folder they stand in is.
-/

namespace RobotSource

/-- A file with its bytes, or a folder with its entries. -/
inductive FileTree where
  | file (content : List UInt8)
  | folder (entries : List (String × FileTree))
deriving Inhabited

namespace FileTree

/-- The folder without entries. -/
def empty : FileTree := .folder []

/-- The entries of a folder; a file has none. -/
def entries : FileTree → List (String × FileTree)
  | .file _ => []
  | .folder es => es

/-- Whether it is a folder. -/
def isFolder : FileTree → Bool
  | .file _ => false
  | .folder _ => true

/-- The entry of a name. -/
def child? (t : FileTree) (name : String) : Option FileTree :=
  (t.entries.find? (·.1 == name)).map (·.2)

/-- What is found behind the given parts. -/
def descend? (t : FileTree) : List String → Option FileTree
  | [] => some t
  | part :: parts => (t.child? part).bind (·.descend? parts)

/-- The parts of a path without two dots, if everything on the way is there. `above` are the parts
that lead to the place where the path begins. -/
def canonicalParts? (root : FileTree) (above : List String) : List String → Option (List String)
  | [] => (root.descend? above).map fun _ => above
  | ".." :: parts =>
    match root.descend? above with
    | some (.folder _) => canonicalParts? root above.dropLast parts
    | _ => none
  | part :: parts =>
    match root.descend? (above ++ [part]) with
    | some _ => canonicalParts? root (above ++ [part]) parts
    | none => none

/-- The path without dots of something that is there. -/
def canonical? (root : FileTree) (path : String) : Option String :=
  (root.canonicalParts? [] (FilePath.parts path)).map FilePath.ofParts

/-- What a path leads to. A path that ends with a slash, or with a slash and a dot, leads to folders
only. -/
def lookup? (root : FileTree) (path : String) : Option FileTree :=
  match (root.canonicalParts? [] (FilePath.parts path)).bind root.descend? with
  | some (.file content) =>
    match (FilePath.splitSlashes path.toList).getLast? with
    | some [] => none
    | some ['.'] => none
    | _ => some (.file content)
  | found => found

/-- Whether a path leads to a folder. -/
def hasFolder (root : FileTree) (path : String) : Bool :=
  (root.lookup? path).any isFolder

/-- The bytes of a file. -/
def bytes? (root : FileTree) (path : String) : Option (List UInt8) :=
  match root.lookup? path with
  | some (.file content) => some content
  | _ => none

/-- The text of a file, if it holds text. -/
def text? (root : FileTree) (path : String) : Option String :=
  ((root.bytes? path).bind Text.decodeUtf8?).map String.ofList

/-! ## Changes -/

/-- Puts an entry at its place among the others, or in place of the one of its name. -/
def putEntry (name : String) (t : FileTree) : List (String × FileTree) → List (String × FileTree)
  | [] => [(name, t)]
  | (n, u) :: rest =>
    if name = n then (name, t) :: rest
    else if name < n then (name, t) :: (n, u) :: rest
    else (n, u) :: putEntry name t rest

/-- Puts something at the end of the given parts; the folders on the way are made. -/
def put (t new : FileTree) : List String → FileTree
  | [] => new
  | part :: parts =>
    let below := ((t.child? part).getD empty).put new parts
    .folder (putEntry part below t.entries)

/-- Writes a file. -/
def write (root : FileTree) (path : String) (content : List UInt8) : FileTree :=
  root.put (.file content) (FilePath.parts path)

/-- Makes a folder. -/
def makeFolder (root : FileTree) (path : String) : FileTree :=
  match root.lookup? path with
  | some _ => root
  | none => root.put empty (FilePath.parts path)

/-- Removes what stands at the end of the given parts. -/
def removeParts (t : FileTree) : List String → FileTree
  | [] => t
  | [part] => .folder (t.entries.filter (·.1 != part))
  | part :: parts =>
    match t.child? part with
    | some below => .folder (putEntry part (below.removeParts parts) t.entries)
    | none => t

/-- Removes a file, if it is there. -/
def remove? (root : FileTree) (path : String) : Option FileTree :=
  (root.bytes? path).map fun _ => root.removeParts (FilePath.parts path)

end FileTree

end RobotSource
