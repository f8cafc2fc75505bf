import RobotSource.Diagnostics
import RobotSource.Editor.Place
import RobotSource.Source
import RobotSource.Uri.Basic
/-!
# Documents

A document is a source text under an address, in one of the two languages, together with the program
of its last parse that succeeded: a parse that fails never discards a program, so that an editor is
answered while its user types. `Document.applyChange` follows the editor's changes to the text and
keeps the place behind the last of them.
-/

namespace RobotSource

open Text Editor

/-- A source text under an address. -/
structure Document where
  uri : Uri
  language : Language
  /-- the editor's version -/
  version : Option Int
  text : String
  /-- the program of the last parse that succeeded -/
  source : Option Source
  /-- the place behind the last change -/
  cursor : Option Editor.Position
deriving Repr

/-- A change of a text: the replacement of a range, or of everything. -/
structure Change where
  range : Option Editor.Range
  text : String
deriving DecidableEq, Repr

namespace Document

/-- A document that has not been parsed yet. -/
def ofText (uri : Uri) (language : Language) (text : String) (version : Option Int) : Document :=
  { uri, language, version, text, source := none, cursor := none }

/-- Parses the text. The program is replaced only if the parse succeeds. -/
def parse (d : Document) : Document × ParseStatus :=
  match Source.parse d.language d.text with
  | .ok source => ({ d with source := some source }, .ok ())
  | .error e => (d, .error e)

/-- The name by which other programs refer to the document. -/
def bareName (d : Document) : String := d.uri.bareName

/-- The pendant program, if the document has one. -/
def pendant? (d : Document) : Option Listing.Program := d.source.bind Source.pendant?

/-- The Karel program, if the document has one. -/
def karel? (d : Document) : Option Karel.Program := d.source.bind Source.karel?

/-- The header comment; empty without a program. -/
def header (d : Document) : String := (d.source.map Source.header).getD ""

/-! ## Changes -/

/-- The part of a line before a place in it, carriage returns at the end of the line left out. -/
def lineBefore (enc : Encoding) (line : List Char) (character : Nat) : List Char :=
  let code := dropReturns line
  code.take (enc.charsWithin code character)

/-- A place moved to the character boundary of the text at which it is cut. -/
def boundary (enc : Encoding) (text : List Char) (p : Editor.Position) : Editor.Position :=
  ⟨p.line, enc.count (lineBefore enc ((splitLines text)[p.line]?.getD []) p.character)⟩

/-- The text with a range replaced, and the place behind the new text. A range that does not lie in
the text, or ends before it starts, is refused. -/
def replaceRange? (enc : Encoding) (text : List Char) (range : Editor.Range) (new : List Char) :
    Option (List Char × Editor.Position) := do
  let first ← offsetOf? enc text range.start
  let last ← offsetOf? enc text range.stop
  guard (first ≤ last)
  return (text.take first ++ new ++ text.drop last, advance enc (boundary enc text range.start) new)

/-- Follows a change of the text. A change that is refused leaves the document as it is. -/
def applyChange (enc : Encoding) (d : Document) (change : Change) : Document :=
  match change.range with
  | none => { d with text := change.text, cursor := some (advance enc ⟨0, 0⟩ change.text.toList) }
  | some range =>
    match replaceRange? enc d.text.toList range change.text.toList with
    | some (text, cursor) => { d with text := String.ofList text, cursor := some cursor }
    | none => d

/-- The line of the cursor up to the cursor. -/
def cursorLine? (enc : Encoding) (d : Document) : Option String :=
  d.cursor.bind fun p =>
    (splitLines d.text.toList)[p.line]?.map fun line =>
      String.ofList (lineBefore enc line p.character)

/-- A place counted in the editor's units, counted in characters instead. A place on no line is left
as it is. -/
def charPosition (enc : Encoding) (text : String) (p : Editor.Position) : Editor.Position :=
  match (splitLines text.toList)[p.line]? with
  | some line => ⟨p.line, (lineBefore enc line p.character).length⟩
  | none => p

end Document

end RobotSource
