import RobotSource.Uri.Basic
/-!
# Reading addresses

`Uri.parse` brings an address into normal form: the scheme in lower case, the dot segments of a path
resolved, and what may not stand in a part percent encoded. An address of a file has no host of its
own machine. Text without a scheme is refused.
-/

namespace RobotSource.Uri

open Text

/-- Why a text is no address. -/
inductive UriError where
  | noScheme
  | emptyHost
  | badHost
  | badService
  | badNumericHost
deriving DecidableEq, Repr

/-- The wording of an error. -/
def UriError.message : UriError → String
  | .noScheme => "relative URL without a base"
  | .emptyHost => "empty host"
  | .badHost => "invalid international domain name"
  | .badService => "invalid port number"
  | .badNumericHost => "invalid IPv6 address"

/-! ## Schemes -/

/-- A character of a scheme. -/
def isSchemeChar (c : Char) : Bool :=
  c.isAlphanum || c == '+' || c == '-' || c == '.'

/-- The scheme, in lower case, and what follows its colon. -/
def splitScheme? (cs : List Char) : Option (String × List Char) :=
  match cs.head?, cs.dropWhile isSchemeChar with
  | some c, ':' :: rest =>
    if c.isAlpha then some (String.ofList ((cs.takeWhile isSchemeChar).map Char.toLower), rest)
    else none
  | _, _ => none

/-- The service number that goes without saying, for the schemes whose addresses always have a
host. -/
def defaultService? (scheme : String) : Option Nat :=
  if scheme ∈ ["http", "ws"] then some 80
  else if scheme ∈ ["https", "wss"] then some 443
  else if scheme = "ftp" then some 21
  else none

/-- Whether a backslash counts as a slash. -/
def isSpecial (scheme : String) : Bool :=
  scheme == "file" || (defaultService? scheme).isSome

/-! ## Paths -/

/-- A drive letter: a letter, then a colon or a bar. -/
def isDriveLetter : List Char → Bool
  | [c, d] => c.isAlpha && (d == ':' || d == '|')
  | _ => false

/-- A segment that stands for the folder itself. -/
def isSingleDot (segment : List Char) : Bool :=
  ["." , "%2e"].contains (String.ofList (segment.map Char.toLower))

/-- A segment that stands for the folder above. -/
def isDoubleDot (segment : List Char) : Bool :=
  ["..", ".%2e", "%2e.", "%2e%2e"].contains (String.ofList (segment.map Char.toLower))

/-- One folder up; a drive letter stays. -/
def shorten (file : Bool) (path : List (List Char)) : List (List Char) :=
  match path with
  | [drive] => if file && isDriveLetter drive then path else []
  | _ => path.dropLast

/-- A segment in normal form. -/
def normalSegment (file : Bool) (path : List (List Char)) (segment : List Char) : List Char :=
  if file && path.isEmpty && isDriveLetter segment then segment.take 1 ++ [':']
  else percentEncode pathSpecial segment

/-- Adds the segments to a path. A dot segment at the end leaves an empty one. -/
def addSegments (file : Bool) (path : List (List Char)) : List (List Char) → List (List Char)
  | [] => path
  | [segment] =>
    if isDoubleDot segment then shorten file path ++ [[]]
    else if isSingleDot segment then path ++ [[]]
    else path ++ [normalSegment file path segment]
  | segment :: rest =>
    if isDoubleDot segment then addSegments file (shorten file path) rest
    else if isSingleDot segment then addSegments file path rest
    else addSegments file (path ++ [normalSegment file path segment]) rest

/-- The normal form of a path, given without its first slash. The path of a file begins with a
single slash. -/
def normalPath (file : Bool) (cs : List Char) : List Char :=
  let segments := addSegments file [] (FilePath.splitSlashes cs)
  let path := segments.flatMap ('/' :: ·)
  if file then '/' :: path.dropWhile (· == '/') else path

/-! ## Hosts -/

/-- A character that may not stand in a host name. -/
def isForbiddenInHost (c : Char) : Bool :=
  c.toNat ≤ 0x20 || 0x7e < c.toNat ||
    ['#', '%', '/', ':', '<', '>', '?', '@', '[', '\\', ']', '^', '|'].contains c

/-- The host of an address whose scheme is special, in lower case. -/
def hostName (cs : List Char) : Except UriError String :=
  match cs with
  | '[' :: _ =>
    if cs.getLast? = some ']' ∧ (cs.drop 1).dropLast.all fun c =>
      (hexValue? c).isSome || c == ':' || c == '.'
    then .ok (String.ofList (cs.map Char.toLower)) else .error .badNumericHost
  | _ =>
    let name := (decodeUtf8 (percentDecode cs)).map Char.toLower
    if name.any isForbiddenInHost then .error .badHost
    else if name.isEmpty then .error .emptyHost
    else .ok (String.ofList name)

/-- User and password as they are written, with the at sign. -/
def userText (cs : List Char) : List Char :=
  let user := percentEncode userSpecial (cs.takeWhile (· != ':'))
  let password := percentEncode userSpecial ((cs.dropWhile (· != ':')).drop 1)
  let both := if password.isEmpty then user else user ++ ':' :: password
  if both.isEmpty then [] else both ++ ['@']

/-- The service number as it is written; the one that goes without saying is left out. -/
def serviceText (scheme : String) (cs : Option (List Char)) : Except UriError (List Char) :=
  match cs with
  | none => .ok []
  | some [] => .ok []
  | some ds =>
    let n := digitsValue ds
    if !ds.all Char.isDigit || 65535 < n then .error .badService
    else if defaultService? scheme = some n then .ok []
    else .ok (':' :: (toString n).toList)

/-- Reads an authority, and yields it as it is written. -/
def readAuthority (scheme : String) (cs : List Char) : Except UriError String := do
  let parts := splitAuthority cs
  let host ←
    if isSpecial scheme then
      if parts.host.isEmpty then .error .emptyHost else hostName parts.host
    else if parts.host.any fun c => isForbiddenInHost c && c.toNat ≤ 0x7e && c != '%' then
      .error .badHost
    else .ok (String.ofList (percentEncode isControl parts.host))
  if host.isEmpty && (parts.user.isSome || parts.service.isSome) then .error .emptyHost
  let service ← serviceText scheme parts.service
  let user := (parts.user.map userText).getD []
  return String.ofList user ++ host ++ String.ofList service

/-! ## Whole addresses -/

/-- Backslashes as slashes. -/
def unifySlashes (cs : List Char) : List Char :=
  cs.map fun c => if c = '\\' then '/' else c

/-- Whether a path, given without its first slash, begins with a drive letter. -/
def beginsWithDrive (path : List Char) : Bool :=
  (addSegments true [] (FilePath.splitSlashes path)).head?.any isDriveLetter

/-- Authority and path of a file address, whose text begins behind the colon. A drive letter belongs
to the machine itself, so that a host before it is dropped. -/
def fileBody (cs : List Char) : Except UriError (String × String) := do
  match unifySlashes cs with
  | '/' :: '/' :: rest =>
    let place := rest.takeWhile (· != '/')
    let (host, path) ←
      if isDriveLetter place then .ok ("", rest)
      else if place.isEmpty then .ok ("", rest)
      else do
        let host ← hostName place
        .ok (if host = "localhost" then "" else host, rest.drop place.length)
    let path := path.dropWhile (· == '/')
    return (if beginsWithDrive path then "" else host, String.ofList (normalPath true path))
  | '/' :: rest => return ("", String.ofList (normalPath true rest))
  | rest => return ("", String.ofList (normalPath true rest))

/-- Authority and path of an address that always has a host. -/
def hostedBody (scheme : String) (cs : List Char) : Except UriError (String × String) := do
  let rest := (unifySlashes cs).dropWhile (· == '/')
  let place := rest.takeWhile (· != '/')
  let text ← readAuthority scheme place
  return (text, String.ofList (normalPath false ((rest.drop place.length).drop 1)))

/-- Authority and path of any other address. Without a slash the path is kept as one piece. -/
def plainBody (scheme : String) (cs : List Char) : Except UriError (Option String × String) := do
  match cs with
  | '/' :: '/' :: rest =>
    let place := rest.takeWhile (· != '/')
    let text ← readAuthority scheme place
    match rest.drop place.length with
    | [] => return (some text, "")
    | _ :: path => return (some text, String.ofList (normalPath false path))
  | '/' :: rest => return (none, String.ofList (normalPath false rest))
  | rest => return (none, String.ofList (percentEncode isControl rest))

/-- Without control characters and spaces at either end, and without tabs and line breaks. -/
def cleanText (cs : List Char) : List Char :=
  let outer := fun (c : Char) => c.toNat ≤ 0x20
  (dropEndWhile outer (cs.dropWhile outer)).filter fun c => !(c == '\t' || c == '\n' || c == '\r')

/-- The address that a text stands for. -/
def parse (input : String) : Except UriError Uri := do
  match splitScheme? (cleanText input.toList) with
  | none => .error .noScheme
  | some (scheme, rest) =>
    let (body, query, fragment) := splitTail rest
    let (authority, path) ←
      if scheme = "file" then do
        let (a, p) ← fileBody body
        .ok (some a, p)
      else if isSpecial scheme then do
        let (a, p) ← hostedBody scheme body
        .ok (some a, p)
      else plainBody scheme body
    let querySet := fun c => querySpecial c || (isSpecial scheme && c == '\'')
    return ofParts {
      scheme, authority, path
      query := query.map fun q => String.ofList (percentEncode querySet q)
      fragment := fragment.map fun f => String.ofList (percentEncode fragmentSpecial f) }

/-- Every encoded colon decoded. -/
def decodeColons : List Char → List Char
  | [] => []
  | '%' :: '3' :: 'A' :: rest => ':' :: decodeColons rest
  | '%' :: '3' :: 'a' :: rest => ':' :: decodeColons rest
  | c :: rest => c :: decodeColons rest

/-- The address with its encoded colons decoded, as long as it is one then: some editors encode the
colon of a drive letter. -/
def normalizeClient (u : Uri) : Uri :=
  match parse (String.ofList (decodeColons u.text.toList)) with
  | .ok v => v
  | .error _ => u

/-- The address that an editor sent. -/
def ofClient (input : String) : Except UriError Uri :=
  (parse input).map normalizeClient

end RobotSource.Uri
