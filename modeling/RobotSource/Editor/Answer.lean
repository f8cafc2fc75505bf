import RobotSource.Editor.Position
/-!
# What an editor is answered

The pieces of an answer to an editor: diagnostics, symbols, completion items, hovers and edits, and
how each of them stands in a message. A member that is absent is left out of the message.
-/

namespace RobotSource.Editor

/-! ## Diagnostics -/

/-- A syntax error as the editor shows it. -/
structure Diagnostic where
  range : Range
  message : String
deriving DecidableEq, Repr

/-- A diagnostic as a message holds it; its severity is that of an error. -/
def Diagnostic.toJson (d : Diagnostic) : Json :=
  .object [("range", d.range.toJson), ("severity", .nat 1), ("source", .string "tpkarel"),
    ("message", .string d.message)]

/-! ## Symbols -/

/-- The kinds of symbols. -/
inductive SymbolKind where
  | label
  | constant
  | type
  | field
  | variable
  | routine
deriving DecidableEq, Repr

/-- The number of a symbol kind in a message. -/
def SymbolKind.code : SymbolKind → Nat
  | .label => 20
  | .constant => 14
  | .type => 23
  | .field => 8
  | .variable => 13
  | .routine => 12

/-- A symbol of a document, with those inside it if it can have any. -/
inductive Symbol where
  | mk (name : String) (detail : Option String) (kind : SymbolKind) (range : Range)
      (children : Option (List Symbol))
deriving Repr

namespace Symbol

/-- The name. -/
def name : Symbol → String
  | .mk n _ _ _ _ => n

/-- What is said about the symbol. -/
def detail : Symbol → Option String
  | .mk _ d _ _ _ => d

/-- The kind. -/
def kind : Symbol → SymbolKind
  | .mk _ _ k _ _ => k

/-- The range of the declaration. -/
def range : Symbol → Range
  | .mk _ _ _ r _ => r

/-- The symbols inside, if there can be any. -/
def children : Symbol → Option (List Symbol)
  | .mk _ _ _ _ c => c

mutual

/-- A symbol as a message holds it. -/
def toJson : Symbol → Json
  | .mk name detail kind range none =>
    .ofMembers [("name", some (.string name)), ("detail", detail.map .string),
      ("kind", some (.nat kind.code)), ("range", some range.toJson),
      ("selectionRange", some range.toJson)]
  | .mk name detail kind range (some children) =>
    .ofMembers [("name", some (.string name)), ("detail", detail.map .string),
      ("kind", some (.nat kind.code)), ("range", some range.toJson),
      ("selectionRange", some range.toJson), ("children", some (.array (listToJson children)))]

/-- Several symbols. -/
def listToJson : List Symbol → List Json
  | [] => []
  | s :: ss => toJson s :: listToJson ss

end

end Symbol

/-! ## Completions -/

/-- The kinds of completion items. -/
inductive CompletionKind where
  | program
  | variable
  | field
  | snippet
deriving DecidableEq, Repr

/-- The number of a completion kind in a message. -/
def CompletionKind.code : CompletionKind → Nat
  | .program => 9
  | .variable => 6
  | .field => 5
  | .snippet => 15

/-- The text that an item inserts. -/
inductive Insertion where
  | plain (text : String)
  /-- a text with places to fill in -/
  | template (text : String)
deriving DecidableEq, Repr

/-- The text of an insertion. -/
def Insertion.text : Insertion → String
  | .plain t => t
  | .template t => t

/-- The number of an insertion's format in a message. -/
def Insertion.formatCode : Insertion → Nat
  | .plain _ => 1
  | .template _ => 2

/-- A completion item. -/
structure Completion where
  label : String
  kind : CompletionKind
  detail : Option String
  documentation : Option String
  insertion : Option Insertion
deriving DecidableEq, Repr

/-- A completion item as a message holds it. -/
def Completion.toJson (c : Completion) : Json :=
  .ofMembers [("label", some (.string c.label)), ("kind", some (.nat c.kind.code)),
    ("detail", c.detail.map .string), ("documentation", c.documentation.map .string),
    ("insertText", c.insertion.map fun i => .string i.text),
    ("insertTextFormat", c.insertion.map fun i => .nat i.formatCode)]

/-! ## Hovers, locations and edits -/

/-- What is shown over a token, as marked-up text. -/
structure Hover where
  markdown : String
  range : Range
deriving DecidableEq, Repr

/-- A hover as a message holds it. -/
def Hover.toJson (h : Hover) : Json :=
  .object [("contents", .object [("kind", .string "markdown"), ("value", .string h.markdown)]),
    ("range", h.range.toJson)]

/-- A range of a document. -/
structure Location where
  uri : String
  range : Range
deriving DecidableEq, Repr

/-- A location as a message holds it. -/
def Location.toJson (l : Location) : Json :=
  .object [("uri", .string l.uri), ("range", l.range.toJson)]

/-- The replacement of a range by a text. -/
structure TextEdit where
  range : Range
  newText : String
deriving DecidableEq, Repr

/-- An edit as a message holds it. -/
def TextEdit.toJson (e : TextEdit) : Json :=
  .object [("range", e.range.toJson), ("newText", .string e.newText)]

end RobotSource.Editor
