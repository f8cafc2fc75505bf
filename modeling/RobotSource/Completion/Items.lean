import RobotSource.Completion.Path
import RobotSource.Completion.Token
import RobotSource.Settings
import RobotSource.Snippet
import RobotSource.Text.WordCharacter
import RobotSource.Workspace.Basic
/-!
# Completions

What can follow a line that ends at the cursor: the programs of the workspace behind `CALL` or
`RUN`, variable paths behind `$[`, and the snippets of the language at the beginning of a line. The
line number of a body line is left aside.
-/

namespace RobotSource.Completion

open Text

/-! ## Programs -/

/-- The placeholders of a call, one for each argument. -/
def argumentText (count : Nat) : String :=
  if count = 0 then ""
  else
    let places := (List.range count).map fun i =>
      "$\x7b" ++ toString (i + 1) ++ ":arg" ++ toString (i + 1) ++ "\x7d"
    "(" ++ ",".intercalate places ++ ")"

/-- The item of a program that can be called. -/
def callItem (name : String) (d : Document) : Editor.Completion :=
  { label := name
    kind := .program
    detail := some d.language.programType
    documentation := if d.header = "" then none else some d.header
    insertion := some (.template (name ++ argumentText (argumentCount d.header))) }

/-- The programs that can be called, one for each name, in the order of the names. -/
def callItems (settings : Settings) (ws : Workspace) : List Editor.Completion :=
  let spelled := if settings.lowerCase then lower else upper
  let programs := ws.documents.foldl
    (fun (t : Table Document) d =>
      if t.contains (spelled d.bareName) then t else t.insert (spelled d.bareName) d)
    .empty
  programs.entries.map fun (name, d) => callItem name d

/-- The items behind a token that calls a program. -/
def calls (settings : Settings) (ws : Workspace) (tokens : List (List Char)) :
    List Editor.Completion :=
  match tokens.getLast? with
  | some token =>
    if sameCharsIgnoringCase token "CALL".toList || sameCharsIgnoringCase token "RUN".toList then
      callItems settings ws
    else []
  | none => []

/-! ## Variable paths -/

/-- The item of a Karel program whose variables can be named. -/
def programItem (d : Document) : Editor.Completion :=
  { label := upper d.bareName
    kind := .program
    detail := some d.language.programType
    documentation := none
    insertion := none }

/-- The Karel programs. -/
def programItems (ws : Workspace) : List Editor.Completion :=
  (ws.documents.filter (·.language == .karel)).map programItem

/-- What follows the last `$[` of a token. -/
def behindBracket? : List Char → Option (List Char)
  | [] => none
  | c :: cs =>
    match behindBracket? cs with
    | some rest => some rest
    | none =>
      match c, cs with
      | '$', '[' :: rest => some rest
      | _, _ => none

/-- A character of the path behind the name of a program. -/
def isPathChar (c : Char) : Bool :=
  isWordCharacter c || c == '[' || c == ']' || c == ',' || c == '.'

/-- The pieces of a path between its dots. -/
def splitDots : List Char → List (List Char)
  | [] => [[]]
  | c :: cs => if c = '.' then [] :: splitDots cs else extendFirst c (splitDots cs)

/-- The items behind `$[`: the Karel programs, or what a path in one of them can go on with. -/
def variablePaths (ws : Workspace) (tokens : List (List Char)) : List Editor.Completion :=
  match tokens.getLast?.bind behindBracket? with
  | none => []
  | some rest =>
    match rest.takeWhile isWordCharacter, rest.dropWhile isWordCharacter with
    | _, [] => programItems ws
    | name, ']' :: path =>
      if name.isEmpty || !path.all isPathChar then []
      else match (ws.findOf? (String.ofList name) .karel).bind Document.karel? with
        | some p => pathItems p (splitDots path)
        | none => []
    | _, _ => []

/-! ## Lines -/

/-- The snippets that fit the only token of a line. -/
def snippets (language : Language) (tokens : List (List Char)) (code : List Char) :
    List Editor.Completion :=
  match tokens with
  | [] => Snippet.completions language ""
  | [token] =>
    if code.getLast?.any isBlank then [] else Snippet.completions language (String.ofList token)
  | _ => []

/-- A line without the number at its beginning. -/
def dropLineNumber (line : List Char) : List Char :=
  let rest := line.dropWhile isBlank
  match rest.takeWhile isDecimalDigit, rest.dropWhile isDecimalDigit with
  | _ :: _, ':' :: code => code
  | _, _ => line

/-- What can follow a line. -/
def items (settings : Settings) (ws : Workspace) (language : Language) (line : String) :
    List Editor.Completion :=
  let code := dropLineNumber line.toList
  let tokens := tokenize code
  calls settings ws tokens ++ variablePaths ws tokens ++ snippets language tokens code

/-- What can follow at the place of the last change. -/
def atCursor (settings : Settings) (ws : Workspace) (uri : Uri) :
    Except WorkspaceError (List Editor.Completion) := do
  let d ← ws.entry uri
  match d.cursorLine? ws.encoding with
  | some line => return items settings ws d.language line
  | none => return []

/-- What can follow at a place. A place on no line stands for that of the last change. -/
def atPosition (settings : Settings) (ws : Workspace) (uri : Uri) (p : Editor.Position) :
    Except WorkspaceError (List Editor.Completion) := do
  let d ← ws.entry uri
  match lineAt? d.text p.line with
  | some line =>
    let chars := (Document.charPosition ws.encoding d.text p).character
    return items settings ws d.language (String.ofList (line.toList.take chars))
  | none => atCursor settings ws uri

end RobotSource.Completion
