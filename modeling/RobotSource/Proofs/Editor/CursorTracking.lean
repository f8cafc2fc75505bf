import RobotSource.Completion.Items
import RobotSource.Proofs.Editor.Change
import RobotSource.Proofs.Editor.Following
import RobotSource.Proofs.Workspace.Opened
/-!
# The cursor behind the last change

The cursor of a document is worked out without a look at the new text. It is exact all the same
(`cursor_exact`): it is decoded to the end of what the change has put in, and the line up to the cursor
is what stands there behind the last line feed. Left out are only texts up to the cursor that end with
a carriage return, which is not counted as part of a line. Whatever stands before it, the cursor is on a
line of its document (`onLine_invariant`), and completion at its place goes the same way as completion
at the cursor (`Completion.atPosition_eq_atCursor`).
-/

namespace RobotSource

open Text Editor List

variable {enc : Encoding} {u v : List Char}

/-! ## Reading the cursor back -/

/-- **The place behind a beginning of the text is decoded to the end of that beginning.** -/
theorem Editor.offsetOf?_placeBehind (h : u.getLast? ≠ some '\r') :
    offsetOf? enc (u ++ v) (placeBehind enc u) = some u.length := by
  rw [← placeOf_append (v := v)]
  exact offsetOf?_placeOf (by simp) (not_inReturns_append h)

namespace Document

variable {d : Document} {p : Editor.Position}

/-- **The line up to the cursor is what the text up to the cursor holds behind its last line feed.** -/
theorem cursorLine?_placeBehind (htext : d.text.toList = u ++ v)
    (hcursor : d.cursor = some (placeBehind enc u)) (h : u.getLast? ≠ some '\r') :
    d.cursorLine? enc = some (String.ofList (lastLine u)) := by
  obtain ⟨w, hw⟩ := dropReturns_lastLine_append (not_inReturns_append (v := v) h)
  rw [cursorLine?, hcursor, Option.bind_some, htext, placeBehind, getElem?_splitLines_append,
    Option.map_some, lineBefore, hw, Encoding.charsWithin_count_append, take_left]

/-! ## The row of the cursor -/

/-- The cursor, if there is one, is on a line of the text. -/
def OnLine (d : Document) : Prop :=
  ∀ p, d.cursor = some p → p.line < (splitLines d.text.toList).length

theorem onLine_applyChange (enc : Encoding) (change : Change) (h : d.OnLine) :
    (d.applyChange enc change).OnLine := by
  cases hcut : change.cut? enc d.text.toList with
  | none => rwa [applyChange_of_refused hcut]
  | some cut =>
    rw [applyChange_of_cut? hcut]
    rintro p hp
    cases hp
    -- the line feeds before the cursor are some of those of the text
    rw [length_splitLines, String.toList_ofList, count_append, placeBehind]
    dsimp only
    omega

/-- **The cursor of an opened document is always on a line.** -/
theorem onLine_invariant : Invariant OnLine where
  ofText uri language text version := by
    intro p hp
    cases hp
  applyChange enc d change h := onLine_applyChange enc change h
  setVersion d version h := h
  parse d h := by
    unfold parse
    split <;> exact h

end Document

/-! ## Completion at the cursor -/

/-- **Where the cursor is on a line, asking for its place is asking for the cursor.** One way the line
is cut off in the editor's units, the other way in characters, after they have been converted. -/
theorem Completion.atPosition_eq_atCursor {ws : Workspace} {uri : Uri} {d : Document}
    {p : Editor.Position} (settings : Settings) (hopen : ws.entry uri = .ok d)
    (hcursor : d.cursor = some p) (hrow : p.line < (splitLines d.text.toList).length) :
    atPosition settings ws uri p = atCursor settings ws uri := by
  obtain ⟨line, hline⟩ : ∃ line, (splitLines d.text.toList)[p.line]? = some line :=
    ⟨_, getElem?_eq_getElem hrow⟩
  have hcode : lineAt? d.text p.line = some (String.ofList (dropReturns line)) := by
    rw [lineAt?, hline, Option.map_some]
  have hcut : (dropReturns line).take (Document.lineBefore ws.encoding line p.character).length =
      Document.lineBefore ws.encoding line p.character := by
    rw [Document.lineBefore, length_take, take_eq_take_min, Nat.min_assoc, Nat.min_self,
      ← take_eq_take_min]
  have hchars : (Document.charPosition ws.encoding d.text p).character =
      (Document.lineBefore ws.encoding line p.character).length := by
    rw [Document.charPosition, hline]
  have hcursorLine : d.cursorLine? ws.encoding =
      some (String.ofList (Document.lineBefore ws.encoding line p.character)) := by
    rw [Document.cursorLine?, hcursor, Option.bind_some, hline, Option.map_some]
  rw [atPosition, atCursor, hopen]
  simp only [bind, Except.bind, hcode, hchars, hcursorLine, String.toList_ofList, hcut]

namespace Workspace

/-- **The cursor is exact.** Whatever changes have been made, a change that is applied leaves its
text between what it keeps before it and what it keeps behind it, and the cursor is recorded behind
it: unless the text up to there ends with a carriage return, the cursor is decoded to just this offset,
and the line up to the cursor is the end of this text behind its last line feed. In every workspace
that can come about, the cursor of an opened document is on a line, and completion at the place of the
cursor offers what completion at the cursor offers. -/
theorem cursor_exact :
    (∀ (ws : Workspace) (uri : Uri) (d : Document) (earlier : List Change) (change : Change)
      (first last : Nat), ws.entry uri = .ok d →
      let text := (earlier.foldl (fun d c => d.applyChange ws.encoding c) d).text.toList
      change.cut? ws.encoding text = some (first, last) →
      let upTo := text.take first ++ change.text.toList
      let cursor := placeBehind ws.encoding upTo
      ∃ ws' d', ws.applyEdit uri (earlier ++ [change]) = .ok ws' ∧ ws'.entry uri = .ok d' ∧
        d'.text.toList = upTo ++ text.drop last ∧ d'.cursor = some cursor ∧
        (upTo.getLast? ≠ some '\r' →
          offsetOf? ws'.encoding d'.text.toList cursor = some upTo.length ∧
          ws'.cursorLine uri = .ok (some (String.ofList (lastLine upTo))))) ∧
    ∀ (ws : Workspace) (uri : Uri) (d : Document) (cursor : Editor.Position) (settings : Settings),
      Reachable ws → ws.entry uri = .ok d → d.cursor = some cursor →
      cursor.line < (splitLines d.text.toList).length ∧
        Completion.atPosition settings ws uri cursor = Completion.atCursor settings ws uri := by
  refine ⟨?_, ?_⟩
  · intro ws uri d earlier change first last hopen text hcut upTo cursor
    have hedit := applyEdit_of_entry hopen (earlier ++ [change])
    rw [foldl_append, foldl_cons, foldl_nil,
      Document.applyChange_of_cut? hcut] at hedit
    refine ⟨_, _, hedit, entry_eq_ok_iff.2 Table.find?_insert_self, ?_, rfl, fun hlast => ?_⟩
    · simp [text, upTo]
    · refine ⟨?_, ?_⟩
      · simp only [String.toList_ofList]
        exact offsetOf?_placeBehind hlast
      · rw [cursorLine, entry_eq_ok_iff.2 Table.find?_insert_self]
        exact congrArg Except.ok (Document.cursorLine?_placeBehind String.toList_ofList rfl hlast)
  · intro ws uri d cursor settings hws hopen hcursor
    have hrow := hws.opened Document.onLine_invariant uri.text d (entry_eq_ok_iff.1 hopen) cursor
      hcursor
    exact ⟨hrow, Completion.atPosition_eq_atCursor settings hopen hcursor hrow⟩

/-- A change that begins inside a character of two units and ends past the end of its line, and holds
a line feed and another such character. -/
theorem cursor_exact_among_wide :
    let uri : Uri := ⟨"file:///a.ls"⟩
    let start := Operation.run .empty (.openText uri .pendant "x😀y\r\nz" none)
    let change : Change := ⟨some ⟨⟨0, 2⟩, ⟨0, 9⟩⟩, "\n😀b"⟩
    ∃ ws d, start.applyEdit uri [change] = .ok ws ∧ ws.entry uri = .ok d ∧
      d.text = "x😀\n😀b\r\nz" ∧ d.cursor = some ⟨1, 3⟩ ∧
      offsetOf? ws.encoding d.text.toList ⟨1, 3⟩ = some 5 ∧ ws.cursorLine uri = .ok (some "😀b") ∧
      ∀ settings, Completion.atPosition settings ws uri ⟨1, 3⟩ =
        Completion.atCursor settings ws uri := by
  intro uri start change
  let fresh := (Document.ofText uri .pendant "x😀y\r\nz" none).parse.1
  have hopen : start.entry uri = .ok fresh := by
    rw [entry_eq_ok_iff]
    exact opened_openDocument ▸ Table.find?_insert_self
  have htext : fresh.text = "x😀y\r\nz" := Document.text_parse
  have hcut : change.cut? start.encoding fresh.text.toList = some (2, 3) := by
    rw [htext]
    decide
  obtain ⟨ws, d, hedit, hentry, hnew, hcursor, hexact⟩ :=
    cursor_exact.1 start uri fresh [] change 2 3 hopen hcut
  simp only [foldl_nil, htext] at hnew hcursor hexact
  have hupTo : "x😀y\r\nz".toList.take 2 ++ change.text.toList = "x😀\n😀b".toList := by decide
  have hplace : placeBehind start.encoding "x😀\n😀b".toList = ⟨1, 3⟩ := by decide
  rw [hupTo] at hnew hexact hcursor
  rw [hplace] at hexact hcursor
  obtain ⟨hoffset, hline⟩ := hexact (by decide)
  have hreachable : Reachable ws := by
    have hrun : Operation.run start (.applyEdit uri [change]) = ws := by
      rw [nil_append] at hedit
      rw [Operation.run, hedit]
    exact hrun ▸ .run _ (.run _ .empty)
  refine ⟨ws, d, hedit, hentry, ?_, hcursor, hoffset, ?_, fun settings => ?_⟩
  · rw [← String.ofList_toList (s := d.text), hnew]
    decide
  · rw [hline]
    decide
  · exact (cursor_exact.2 ws uri d _ settings hreachable hentry hcursor).2

end Workspace

end RobotSource
