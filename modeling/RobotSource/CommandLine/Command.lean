import RobotSource.CommandLine.Option
import RobotSource.Language
import RobotSource.Text.Digit
/-!
# Commands

The commands check a source, format a listing, list the symbols of a program, or write a completion
script for a shell.
-/

namespace RobotSource.CommandLine

open Text

/-- A command with its options. A source is named by a path, or else it is piped in. -/
inductive Command where
  | verify (path : Option String) (language : Option Language)
  | format (path : Option String) (tabSize : Nat)
  | symbols (path : Option String) (language : Option Language) (header : Bool)
  | completions (shell : String)
  /-- no command was named -/
  | missing
deriving DecidableEq, Repr

/-- The path of the source. -/
def Command.path? : Command → Option String
  | .verify path _ => path
  | .format path _ => path
  | .symbols path _ _ => path
  | .completions _ => none
  | .missing => none

/-! ## Options -/

/-- The number that a text of digits stands for, with or without a sign. -/
def readInteger? (s : String) : Option Int :=
  let digits (cs : List Char) : Option Int :=
    if cs.isEmpty || !cs.all Char.isDigit then none
    else some (digitsValue cs)
  match s.toList with
  | '+' :: cs => digits cs
  | '-' :: cs => (digits cs).map (- ·)
  | cs => digits cs

/-- The blanks of an indentation level, from 1 to 16. -/
def tabSize? (s : String) : Option Nat :=
  match readInteger? s with
  | some n => if 1 ≤ n ∧ n ≤ 16 then some n.toNat else none
  | none => none

/-- The path of a source. -/
def pathOption : OptionSpec := ⟨"file", some 'f', some fun _ => true⟩

/-- The language of a source. -/
def languageOption : OptionSpec := ⟨"type", some 't', some ["tp", "karel"].contains⟩

/-- The blanks of an indentation level. -/
def tabSizeOption : OptionSpec := ⟨"tab-size", none, some fun s => (tabSize? s).isSome⟩

/-- Whether the header comment is listed too. -/
def headerOption : OptionSpec := ⟨"header", none, none⟩

/-- The shell of a completion script. -/
def shellOption : OptionSpec :=
  ⟨"shell", some 's', some ["bash", "elv", "fish", "ps1", "zsh"].contains⟩

/-! ## Arguments -/

/-- The language that an option names. -/
def givenLanguage? (given : Given) : Option Language :=
  (given.value? "type").bind Language.ofName?

/-- Reads the options of a command. -/
def readCommand? (name : String) : Option (List String → Except Refusal Command) :=
  match name with
  | "verify" => some fun args => do
    let given ← readOptions [pathOption, languageOption] [] args
    return .verify (given.value? "file") (givenLanguage? given)
  | "format" => some fun args => do
    let given ← readOptions [pathOption, tabSizeOption] [] args
    return .format (given.value? "file") (((given.value? "tab-size").bind tabSize?).getD 2)
  | "symbols" => some fun args => do
    let given ← readOptions [pathOption, languageOption, headerOption] [] args
    return .symbols (given.value? "file") (givenLanguage? given) (given.value? "header").isSome
  | "completions" => some fun args => do
    let given ← readOptions [shellOption] [] args
    match given.value? "shell" with
    | some shell => return .completions shell
    | none => .error .misuse
  | _ => none

/-- The command that the arguments give. -/
def Command.ofArguments (args : List String) : Except Refusal Command :=
  match args with
  | [] => .ok .missing
  | ["--"] => .ok .missing
  | ["help", name] =>
    .error (if name = "help" ∨ (readCommand? name).isSome then .help else .misuse)
  | name :: args =>
    match readCommand? name with
    | some read => read args
    | none =>
      if name = "help" then .error (if args.isEmpty then .help else .misuse)
      else if ["--help", "--version"].contains name then .error .help
      else match name.toList with
        | '-' :: c :: _ => .error (if c = 'h' ∨ c = 'V' then .help else .misuse)
        | _ => .error .misuse

end RobotSource.CommandLine
