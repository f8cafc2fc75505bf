import RobotSource.FilePath
import RobotSource.Language
import RobotSource.Uri.Percent
/-!
# Addresses of documents

An address is its text in normal form, so that two addresses are the same document exactly when
their texts are equal; its parts are read off the text. The name by which programs refer to each
other is the file name of the path without its extension (`Uri.bareName`), percent encoding left as
it is.
-/

namespace RobotSource

/-- An address in normal form. -/
structure Uri where
  text : String
deriving DecidableEq, Repr, Inhabited

namespace Uri

open Text

/-- The parts of an address; the authority is what stands behind two slashes. -/
structure Parts where
  scheme : String
  authority : Option String
  path : String
  query : Option String
  fragment : Option String

/-- The address of some parts. A path that begins with two slashes is set apart from a missing
authority by a dot. -/
def ofParts (p : Parts) : Uri :=
  ⟨p.scheme ++ ":" ++
    (match p.authority with
      | some a => "//" ++ a
      | none => if "//".toList.isPrefixOf p.path.toList then "/." else "") ++
    p.path ++
    (match p.query with
      | some q => "?" ++ q
      | none => "") ++
    (match p.fragment with
      | some f => "#" ++ f
      | none => "")⟩

/-! ## Parts -/

/-- Cuts off the fragment, then the query. -/
def splitTail (cs : List Char) : List Char × Option (List Char) × Option (List Char) :=
  let body := cs.takeWhile (· != '#')
  let fragment := match cs.dropWhile (· != '#') with
    | _ :: f => some f
    | [] => none
  let query := match body.dropWhile (· != '?') with
    | _ :: q => some q
    | [] => none
  (body.takeWhile (· != '?'), query, fragment)

/-- What stands between the colon of the scheme and the query. -/
def body (u : Uri) : List Char :=
  (splitTail ((u.text.toList.dropWhile (· != ':')).drop 1)).1

/-- The path, still percent encoded. -/
def path (u : Uri) : String :=
  String.ofList <| match u.body with
    | '/' :: '/' :: rest => rest.dropWhile (· != '/')
    | '/' :: '.' :: '/' :: '/' :: rest => '/' :: '/' :: rest
    | rest => rest

/-- An authority in three: what stands before its last at sign, the host, and the service number
behind it. -/
structure Authority where
  user : Option (List Char)
  host : List Char
  service : Option (List Char)

/-- Cuts an authority up. A colon inside brackets belongs to the host. -/
def splitAuthority (cs : List Char) : Authority :=
  let place := (cs.reverse.takeWhile (· != '@')).reverse
  let user := if cs.contains '@' then some (cs.take (cs.length - place.length - 1)) else none
  let bracketed := match place with
    | '[' :: _ => place.takeWhile (· != ']')
    | _ => []
  let outside := place.drop bracketed.length
  let host := bracketed ++ outside.takeWhile (· != ':')
  { user, host, service := match outside.dropWhile (· != ':') with
      | _ :: number => some number
      | [] => none }

/-- The host; empty if there is none. -/
def host (u : Uri) : String :=
  match u.body with
  | '/' :: '/' :: rest => String.ofList (splitAuthority (rest.takeWhile (· != '/'))).host
  | _ => ""

/-- The name by which programs refer to the document. -/
def bareName (u : Uri) : String :=
  (FilePath.stem? u.path).getD u.path

/-- The language that the extension of the path stands for. -/
def language? (u : Uri) : Option Language :=
  (FilePath.extension? u.path).bind Language.ofExtension?

/-! ## Files -/

/-- Behind a lone drive letter the path of a folder ends with a slash. -/
def closeDrive (bytes : List UInt8) : List UInt8 :=
  match bytes.reverse with
  | last :: letter :: _ :: _ =>
    let isLetter := (Char.ofNat letter.toNat).isAlpha
    let isMark := last.toNat == ':'.toNat || last.toNat == '|'.toNat
    if isLetter && isMark then bytes ++ [UInt8.ofNat '/'.toNat] else bytes
  | _ => bytes

/-- The path of the file, if the address has a path from the root on this machine. -/
def filePath? (u : Uri) : Option String :=
  if u.host ≠ "" ∧ u.host ≠ "localhost" then none
  else if FilePath.isAbsolute u.path then
    some (String.ofList (decodeUtf8 (closeDrive (percentDecode u.path.toList))))
  else none

/-- The address of a file. -/
def ofFilePath (path : String) : Uri :=
  let segments := (FilePath.parts path).map fun part =>
    String.ofList (percentEncode segmentSpecial part.toList)
  ofParts
    { scheme := "file", authority := some "", path := FilePath.ofParts segments, query := none
      fragment := none }

/-- The path of a document relative to the first workspace folder, for display. Without a folder, or
outside of it, the whole address is shown. -/
def pathInWorkspace (u : Uri) (folders : List Uri) : String :=
  match folders with
  | [] => u.text
  | folder :: _ =>
    match u.filePath?, folder.filePath? with
    | some path, some base =>
      match FilePath.relativeTo? path base with
      | some (part :: parts) => "/".intercalate (part :: parts)
      | _ => u.text
    | _, _ => u.text

end Uri

end RobotSource
