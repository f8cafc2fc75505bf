import RobotSource.CommandLine.Command
import RobotSource.FilePath
import RobotSource.Listing.Layout
import RobotSource.Symbols
import RobotSource.Text.Utf8
/-!
# Running a command

A command gets the bytes of its source and answers with what it writes to the two outputs and its
exit status. Wrong arguments exit with status 2, a command that fails with status 1 and the name of
its error.
-/

namespace RobotSource.CommandLine

open Text

/-- What a command leaves behind. -/
structure Outcome where
  status : Nat
  output : String
  errors : String
deriving DecidableEq, Repr

/-- Why a command fails. -/
inductive CommandError where
  | invalidCommand
  | unknownFormat
  | fileNotFound
  | notFormattable
  | notText
  | badSource (text : String) (error : Parsing.SyntaxError)

/-! ## Errors -/

/-- A syntax error with its line, and a mark under the place. -/
def syntaxReport (text : String) (e : Parsing.SyntaxError) : String :=
  let place := e.position
  let expected :=
    if e.expected.isEmpty then "" else "    expected " ++ ", ".intercalate e.expected ++ "\n"
  let shown := match lineAt? text (place.line - 1) with
    | some line =>
      "    " ++ line ++ "\n    " ++ String.ofList (List.replicate (place.column - 1) ' ') ++ "^\n"
    | none => ""
  "ERROR row " ++ toString place.line ++ " col " ++ toString place.column ++ ": " ++ e.message ++
    "\n" ++ expected ++ shown ++ "✗ Syntax error\n"

/-- What is said before the name of an error. -/
def CommandError.report : CommandError → String
  | .badSource text e => syntaxReport text e
  | _ => ""

/-- The name of an error. -/
def CommandError.name : CommandError → String
  | .invalidCommand => "InvalidCommand"
  | .unknownFormat => "UnknownFormat"
  | .fileNotFound => "FileNotFound"
  | .notFormattable => "NotFormattable"
  | .notText =>
    "Error \x7b kind: InvalidData, message: \"stream did not contain valid UTF-8\" \x7d"
  | .badSource _ _ => "Syntax"

/-! ## Sources -/

/-- The text and the language of a source. The language is the one that was named, or that of the
file's extension, or the one assumed. The bytes are missing if the path names no file. -/
def readSource (path : Option String) (named assumed : Option Language)
    (bytes : Option (List UInt8)) : Except CommandError (String × Language) := do
  let bytes ← match bytes with
    | some bytes => .ok bytes
    | none => .error .fileNotFound
  let byExtension := (path.bind FilePath.extension?).bind Language.ofExtension?
  let language ← match named.or (byExtension.or assumed) with
    | some language => .ok language
    | none => .error .unknownFormat
  match decodeUtf8? bytes with
  | some text => return (String.ofList text, language)
  | none => .error .notText

/-- The program of a source. -/
def readProgram (text : String) (language : Language) : Except CommandError Source :=
  match Source.parse language text with
  | .ok source => .ok source
  | .error e => .error (.badSource text e)

/-! ## Symbols -/

/-- The word for a kind of symbol. -/
def symbolWord : Editor.SymbolKind → String
  | .label => "label"
  | .constant => "const"
  | .type => "type"
  | .field => "field"
  | .routine => "routine"
  | .variable => "var"

mutual

/-- The lines of a symbol and of those inside it. -/
def symbolText (depth : Nat) : Editor.Symbol → String
  | .mk name detail kind range children =>
    String.ofList (List.replicate (2 * depth) ' ') ++ symbolWord kind ++ "\t" ++ name ++ "\t" ++
      detail.getD "" ++ "\t" ++ toString (range.start.line + 1) ++ "\n" ++
      (match children with
        | some children => symbolsText (depth + 1) children
        | none => "")

/-- The lines of several symbols. -/
def symbolsText (depth : Nat) : List Editor.Symbol → String
  | [] => ""
  | s :: ss => symbolText depth s ++ symbolsText depth ss

end

/-- The header comment, each line behind two dashes. -/
def headerText (source : Source) : String :=
  String.join ((textLines source.header.toList).map fun line => "-- " ++ String.ofList line ++ "\n")

/-! ## Commands -/

/-- What a command writes to its two outputs if it succeeds. -/
def Command.execute (bytes : Option (List UInt8)) : Command → Except CommandError (String × String)
  | .verify path language => do
    let (text, language) ← readSource path language none bytes
    if allBlank text.toList then .error .invalidCommand
    let source ← readProgram text language
    return (text, "✓ " ++ language.name ++ " " ++ source.name ++ " Syntax OK\n")
  | .format path tabSize => do
    let (text, language) ← readSource path none (some .pendant) bytes
    if language ≠ .pendant then .error .notFormattable
    match Listing.layout? tabSize ⟨tabSize, false, false⟩ text with
    | some text => return (text, "")
    | none => .error .notFormattable
  | .symbols path language header => do
    let (text, language) ← readSource path language none bytes
    let source ← readProgram text language
    let header := if header then headerText source else ""
    return (header ++ symbolsText 0 (documentSymbols source), "")
  | .completions _ => .ok ("", "")
  | .missing => .error .invalidCommand

/-- Runs a command on the bytes of its source. -/
def Command.run (c : Command) (bytes : Option (List UInt8)) : Outcome :=
  match c.execute bytes with
  | .ok (output, errors) => ⟨0, output, errors⟩
  | .error e => ⟨1, "", e.report ++ "Error: " ++ e.name ++ "\n"⟩

/-- What is left if the arguments give no command. -/
def Refusal.outcome : Refusal → Outcome
  | .misuse => ⟨2, "", ""⟩
  | .help => ⟨0, "", ""⟩

end RobotSource.CommandLine
