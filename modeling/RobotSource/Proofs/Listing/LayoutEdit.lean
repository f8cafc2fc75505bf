import RobotSource.Formatting
import RobotSource.Proofs.Editor.Change
import RobotSource.Proofs.Editor.Following
/-!
# The edit of a formatting request, carried out

The one edit that formatting answers with runs from the beginning of the text to its end, and the end
is always counted in 16-bit units. Sent back as a change, its end is decoded in whatever units have
been agreed on. Counted in characters the 16-bit units of a line can only be too many, and too many
units are cut off at the end of the line (`offsetOf?_endOfText`). So the change replaces the whole text
and the document is the listing laid out (`applyEdit_layoutEdits`). A carriage return at the end of the
text is not counted as part of its last line and would be left over.
-/

namespace RobotSource

open Text Editor List

namespace Text.Encoding

variable {enc : Encoding} {cs : List Char} {n : Nat}

/-- Whoever goes on to the end of the line counts all its characters. -/
theorem charsWithin_of_count_le (h : enc.count cs ≤ n) : enc.charsWithin cs n = cs.length := by
  induction cs generalizing n with
  | nil => rfl
  | cons c cs ih =>
    have hpos := units_pos enc c
    rw [count] at h
    rw [charsWithin, if_neg (by omega), ih (by omega), length_cons]

/-- No other units are more than those of 16 bits. -/
theorem count_le_utf16 (enc : Encoding) (cs : List Char) :
    enc.count cs ≤ Encoding.utf16.count cs := by
  cases enc with
  | utf16 => exact Nat.le_refl _
  | utf32 =>
    induction cs with
    | nil => exact Nat.le_refl 0
    | cons c cs ih => exact Nat.add_le_add (units_pos .utf16 c) ih

end Text.Encoding

namespace Editor

variable {enc : Encoding} {text : List Char}

theorem offsetOf?_first : offsetOf? enc text ⟨0, 0⟩ = some 0 := by
  cases hsplit : splitLines text with
  | nil => exact absurd hsplit (splitLines_ne_nil text)
  | cons line lines =>
    rw [offsetOf?, hsplit, offsetInLines?]
    cases dropReturns line <;> rfl

/-- The last line ends as the text does. -/
theorem getLast?_lastLine {x : Char} (h : (lastLine text).getLast? = some x) :
    text.getLast? = some x := by
  rw [lastLine, getLast?_reverse] at h
  rw [← head?_reverse]
  obtain ⟨rest, hrest⟩ := takeWhile_prefix (· != '\n') (l := text.reverse)
  rw [← hrest, head?_append, h, Option.some_or]

/-- **The end of a text in 16-bit units is its end in any units.** -/
theorem offsetOf?_endOfText (h : text.getLast? ≠ some '\r') :
    offsetOf? enc text (endOfText text) = some text.length := by
  have hend : endOfText text = placeBehind .utf16 text := advance_placeBehind (u := [])
  have hreturns : dropReturns (lastLine text) = lastLine text := by
    refine dropEndWhile_of_getLast fun x hx => ?_
    have hne : x ≠ '\r' := fun heq => h (heq ▸ getLast?_lastLine hx)
    simpa using hne
  have hoffset : offsetInLines? enc (splitLines (text ++ [])) _ _ = _ :=
    offsetInLines?_append (Encoding.utf16.count (lastLine text))
  rw [append_nil, takeWhile_nil, append_nil, hreturns,
    Encoding.charsWithin_of_count_le (Encoding.count_le_utf16 enc _),
    Nat.sub_add_cancel length_lastLine_le] at hoffset
  rw [hend, offsetOf?, placeBehind, hoffset]

end Editor

/-- An edit as a change that an editor sends. -/
def Change.ofEdit (edit : Editor.TextEdit) : Change := ⟨some edit.range, edit.newText⟩

/-- An edit from the beginning of the text to its end cuts out all of it. -/
theorem Change.cut?_ofEdit (enc : Encoding) {text : List Char} (new : String)
    (h : text.getLast? ≠ some '\r') :
    (ofEdit ⟨⟨⟨0, 0⟩, endOfText text⟩, new⟩).cut? enc text = some (0, text.length) :=
  (cut?_of_range rfl).2 ⟨offsetOf?_first, offsetOf?_endOfText h, Nat.zero_le _⟩

/-- **The edits of a listing make it the listing laid out**, and leave it as it is if it cannot be. -/
theorem Document.foldl_layoutEdits (enc : Encoding) (tab : Nat) (options : Listing.LayoutOptions)
    {d : Document} (h : d.text.toList.getLast? ≠ some '\r') :
    let e := ((Listing.layoutEdits tab options d.text).map Change.ofEdit).foldl
      (fun d change => d.applyChange enc change) d
    (∀ out, Listing.layout? tab options d.text = some out → e.text = out) ∧
      (Listing.layout? tab options d.text = none → e = d) := by
  cases hlayout : Listing.layout? tab options d.text with
  | none => simp [Listing.layoutEdits, hlayout]
  | some new =>
    refine ⟨fun out hout => ?_, fun hnone => nomatch hnone⟩
    obtain rfl := Option.some.inj hout
    by_cases hsame : new = d.text
    · simp [Listing.layoutEdits, hlayout, hsame]
    · have hcut := Change.cut?_ofEdit enc new h
      simp only [Listing.layoutEdits, hlayout, if_neg hsame, map_cons, map_nil,
        foldl_cons, foldl_nil, applyChange_of_cut? hcut]
      simp [Change.ofEdit]

/-- **The formatting edit reproduces the formatted text.** Whatever units have been agreed on, the
edits that format an opened listing, sent back as changes, are accepted, and make its text the listing
laid out; if it cannot be laid out, there are none and the document stays as it is. -/
theorem Workspace.applyEdit_layoutEdits (ws : Workspace) (uri : Uri) (d : Document)
    (settings : Settings) (options : Listing.LayoutOptions) (hopen : ws.entry uri = .ok d)
    (hlanguage : d.language = .pendant) (hlast : d.text.toList.getLast? ≠ some '\r') :
    ∃ edits ws' d', formatDocument settings ws uri options = .ok edits ∧
      edits = Listing.layoutEdits settings.tabSize options d.text ∧
      ws.applyEdit uri (edits.map Change.ofEdit) = .ok ws' ∧ ws'.entry uri = .ok d' ∧
      (∀ out, Listing.layout? settings.tabSize options d.text = some out → d'.text = out) ∧
      (Listing.layout? settings.tabSize options d.text = none → d' = d) := by
  have hedits : formatDocument settings ws uri options =
      .ok (Listing.layoutEdits settings.tabSize options d.text) := by
    rw [formatDocument, hopen]
    simp only [bind, Except.bind, hlanguage]
    rfl
  exact ⟨_, _, _, hedits, rfl, applyEdit_of_entry hopen _, entry_eq_ok_iff.2 Table.find?_insert_self,
    Document.foldl_layoutEdits ws.encoding settings.tabSize options hlast⟩

/-- A text without a final break whose last line has more 16-bit units than characters, where places
are counted in characters. -/
theorem Workspace.applyEdit_layoutEdits_wide_end :
    let d := Document.ofText ⟨"file:///a.ls"⟩ .pendant
      "/PROG A\r\n/MN\r\n 1: R[1]=1;\r\n/POS\r\n/END 😀😀" none
    let ws := { Workspace.empty with
      encoding := .utf32, opened := Table.empty.insert d.uri.text d }
    ws.entry d.uri = .ok d ∧ d.language = .pendant ∧ d.text.toList.getLast? ≠ some '\r' ∧
      ∃ edits ws' d', formatDocument {} ws d.uri { tabSize := 4 } = .ok edits ∧
        ws.applyEdit d.uri (edits.map Change.ofEdit) = .ok ws' ∧ ws'.entry d.uri = .ok d' ∧
        d'.text = "/PROG A\r\n/MN\r\n   1:  R[1]=1 ;\r\n/POS\r\n/END 😀😀" := by
  intro d ws
  have hopen : ws.entry d.uri = .ok d := entry_eq_ok_iff.2 Table.find?_insert_self
  have hlast : d.text.toList.getLast? ≠ some '\r' := by decide
  have hlayout : Listing.layout? (Settings.tabSize {}) { tabSize := 4 } d.text =
      some "/PROG A\r\n/MN\r\n   1:  R[1]=1 ;\r\n/POS\r\n/END 😀😀" := by decide +kernel
  obtain ⟨edits, ws', d', hedits, -, hrun, hentry, htext, -⟩ :=
    applyEdit_layoutEdits ws d.uri d {} { tabSize := 4 } hopen rfl hlast
  exact ⟨hopen, rfl, hlast, edits, ws', d', hedits, hrun, hentry, htext _ hlayout⟩

end RobotSource
