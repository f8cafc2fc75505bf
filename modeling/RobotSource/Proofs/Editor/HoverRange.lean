import RobotSource.Hover
import RobotSource.Proofs.Editor.Place
/-!
# The range of a hover and the place it was asked for

A place comes in the units of the editor and is decoded to characters; the token under it is found in
characters, and its range is answered in characters. Counted in characters the range always holds the
place (`contains_of_resolve`). Counted in the editor's units it holds the place exactly if the
characters of two units before the place do not carry it past the end of the range
(`hover_range_contains_iff`): where such a character stands earlier on the line, a place close to the
end of a token falls out of the range that is answered for it.
-/

namespace RobotSource

open Text Editor

namespace Text.Encoding

variable {enc : Encoding}
variable {line : List Char}

/-- Whether a character takes two units. -/
def isWide (enc : Encoding) (c : Char) : Bool := enc.units c == 2

/-- Units are characters and one more for each wide one. -/
theorem count_eq_length_add (text : List Char) :
    enc.count text = text.length + text.countP enc.isWide := by
  have hunits (c : Char) : enc.units c = 1 + if enc.isWide c then 1 else 0 := by
    cases enc with
    | utf16 =>
      simp only [isWide, units]
      split <;> rfl
    | utf32 => rfl
  induction text with
  | nil => rfl
  | cons c cs ih =>
    rw [count, ih, hunits, List.length_cons, List.countP_cons]
    omega

end Text.Encoding

/-! ## Ranges -/

/-- Further right on its line, a place stays in a range up to the end of the range. -/
theorem Editor.Range.contains_right_iff {r : Range} {l k m : Nat} (h : r.contains ⟨l, k⟩ = true)
    (hkm : k ≤ m) : r.contains ⟨l, m⟩ = true ↔ (l = r.stop.line → m ≤ r.stop.character) := by
  simp only [Range.contains, Bool.not_eq_true', Bool.or_eq_false_iff, Bool.and_eq_false_iff,
    decide_eq_false_iff_not, beq_eq_false_iff_ne, Nat.not_lt] at h ⊢
  omega

/-! ## The token under a place -/

variable {ws : Workspace} {place : Editor.Position} {r : Reference} {d : Document}

theorem contains_of_labelReference? {p : Listing.Program}
    {references : List Listing.LabelReference} (h : labelReference? p references place = some r) :
    r.range.contains place := by
  obtain ⟨reference, hfind, h⟩ := Option.bind_eq_some_iff.1 h
  obtain ⟨number, -, h⟩ := Option.bind_eq_some_iff.1 h
  obtain ⟨definition, -, h⟩ := Option.bind_eq_some_iff.1 h
  have hcontains := List.find?_some hfind
  cases h
  exact hcontains

theorem contains_of_listingReference? {p : Listing.Program}
    (h : listingReference? ws p place = some r) : r.range.contains place := by
  obtain ⟨instruction, -, h⟩ := Option.bind_eq_some_iff.1 h
  split at h
  · split at h
    · rename_i hcontains
      obtain ⟨target, -, h⟩ := Option.bind_eq_some_iff.1 h
      cases h
      exact hcontains
    · exact contains_of_labelReference? h
  · exact contains_of_labelReference? h

/-- The word at a place that lies in the line reaches from before the place to behind it. -/
theorem wordAt?_bounds {index : Nat} {w : LineWord}
    (h : wordAt? line index = some w) (hindex : index ≤ line.length) :
    w.start ≤ index ∧ index ≤ w.stop := by
  simp only [wordAt?, Nat.min_eq_left hindex] at h
  split at h
  · cases h
  · cases h
    exact ⟨Nat.sub_le _ _, Nat.le_add_right _ _⟩

theorem contains_of_karelReference? {p : Karel.Program}
    (hline : lineAt? d.text place.line = some (String.ofList line))
    (hplace : place.character ≤ line.length) (h : karelReference? d p place = some r) :
    r.range.contains place := by
  rw [karelReference?, hline, Option.bind_eq_bind, Option.bind_some] at h
  obtain ⟨word, hword, h⟩ := Option.bind_eq_some_iff.1 h
  obtain ⟨declared, -, h⟩ := Option.bind_eq_some_iff.1 h
  cases h
  rw [String.toList_ofList] at hword
  obtain ⟨hstart, hstop⟩ := wordAt?_bounds hword hplace
  simp [Range.contains, hstart, hstop]

theorem resolve_of_entry {uri : Uri} (hopen : ws.entry uri = .ok d) :
    let inChars := Document.charPosition ws.encoding d.text place
    resolve ws uri place = match d.source with
      | some (.pendant p) => .ok (listingReference? ws p inChars)
      | some (.karel p) => .ok (karelReference? d p inChars)
      | none => .ok none := by
  rw [resolve, hopen]
  rfl

/-- **Counted in characters, the range of a token holds the place under which it was found.** -/
theorem contains_of_resolve {uri : Uri} (hopen : ws.entry uri = .ok d)
    (hline : (splitLines d.text.toList)[place.line]? = some line)
    (h : resolve ws uri place = .ok (some r)) :
    r.range.contains ⟨place.line, (Document.lineBefore ws.encoding line place.character).length⟩ =
      true := by
  have hplace : Document.charPosition ws.encoding d.text place =
      ⟨place.line, (Document.lineBefore ws.encoding line place.character).length⟩ := by
    rw [Document.charPosition, hline]
  rw [resolve_of_entry hopen, hplace] at h
  split at h
  · exact contains_of_listingReference? (Except.ok.inj h)
  · have hcode : lineAt? d.text place.line = some (String.ofList (dropReturns line)) := by
      rw [lineAt?, hline]
      rfl
    refine contains_of_karelReference? hcode ?_ (Except.ok.inj h)
    exact (List.take_prefix _ _).length_le
  · cases h

theorem eq_ok_of_toOption {ε α : Type} {e : Except ε α} {a : α} (h : e.toOption = some a) :
    e = .ok a := by
  cases e with
  | error _ => cases h
  | ok _ => exact congrArg Except.ok (Option.some.inj h)

/-- **A hover's range and the place it was asked for.** Counted in characters, the range holds the
place. Counted in the units of the editor, it holds the character boundary that the place is decoded
to exactly if, where the range ends on this line, the wide characters before the place are no more
than the characters from it to the end of the range. -/
theorem hover_range_contains_iff (ws : Workspace) (uri : Uri) (place : Editor.Position)
    {d : Document} {shown : Editor.Hover} (hopen : ws.entry uri = .ok d)
    (hline : (splitLines d.text.toList)[place.line]? = some line)
    (hshown : hover ws uri place = .ok (some shown)) :
    let inChars := Document.charPosition ws.encoding d.text place
    let inUnits := Document.boundary ws.encoding d.text.toList place
    shown.range.contains inChars = true ∧
      (shown.range.contains inUnits = true ↔
        (place.line = shown.range.stop.line →
          (Document.lineBefore ws.encoding line place.character).countP ws.encoding.isWide ≤
            shown.range.stop.character - inChars.character)) := by
  obtain ⟨before, hbefore⟩ : ∃ before,
    before = Document.lineBefore ws.encoding line place.character := ⟨_, rfl⟩
  have hchars : Document.charPosition ws.encoding d.text place = ⟨place.line, before.length⟩ := by
    rw [Document.charPosition, hline, hbefore]
  have hunits : Document.boundary ws.encoding d.text.toList place =
      ⟨place.line, before.length + before.countP ws.encoding.isWide⟩ := by
    rw [Document.boundary, hline, Option.getD_some, ← hbefore, Encoding.count_eq_length_add]
  obtain ⟨r, hr, hrange⟩ : ∃ r, resolve ws uri place = .ok (some r) ∧ shown.range = r.range := by
    rw [hover] at hshown
    cases hresolve : resolve ws uri place with
    | error e =>
      rw [hresolve] at hshown
      cases hshown
    | ok reference =>
      rw [hresolve] at hshown
      obtain ⟨r, rfl, hr⟩ := Option.map_eq_some_iff.1 (Except.ok.inj hshown)
      exact ⟨r, rfl, by rw [← hr]⟩
  have hcontains : shown.range.contains ⟨place.line, before.length⟩ = true := by
    rw [hrange, hbefore]
    exact contains_of_resolve hopen hline hr
  rw [hchars, hunits, ← hbefore]
  refine ⟨hcontains, ?_⟩
  rw [Range.contains_right_iff hcontains (Nat.le_add_right _ _)]
  have hend : place.line = shown.range.stop.line → before.length ≤ shown.range.stop.character :=
    (Range.contains_right_iff hcontains (Nat.le_refl _)).1 hcontains
  refine forall_congr' fun hlast => ?_
  have := hend hlast
  dsimp only
  omega

/-- Behind one wide character the place in front of a name of one letter still lies in the range of
the name. -/
theorem hover_range_contains_iff_before_name :
    let uri : Uri := ⟨"file:///a.ls"⟩
    let text := "/PROG A\n/MN\n   1:  IF R[1:😀]=1,CALL A ;\n/END"
    let ws := (Workspace.empty.openDocument (.ofText uri .pendant text none)).1
    let place : Editor.Position := ⟨2, 25⟩
    ∃ d shown, ws.entry uri = .ok d ∧ hover ws uri place = .ok (some shown) ∧
      shown.range = ⟨⟨2, 24⟩, ⟨2, 25⟩⟩ ∧
      shown.range.contains (Document.boundary ws.encoding d.text.toList place) = true := by
  intro uri text ws place
  have htext : (ws.entry uri).toOption.map (·.text) = some text := by decide +kernel
  have hhover : (hover ws uri place).toOption.map (·.map (·.range)) =
      some (some ⟨⟨2, 24⟩, ⟨2, 25⟩⟩) := by decide +kernel
  obtain ⟨d, hd, hdtext⟩ := Option.map_eq_some_iff.1 htext
  obtain ⟨answer, hanswer, hmap⟩ := Option.map_eq_some_iff.1 hhover
  obtain ⟨shown, rfl, hrange⟩ := Option.map_eq_some_iff.1 hmap
  have hopen := eq_ok_of_toOption hd
  have hshown := eq_ok_of_toOption hanswer
  have hline : (splitLines d.text.toList)[place.line]? =
      some "   1:  IF R[1:😀]=1,CALL A ;".toList := by
    rw [hdtext]
    decide
  refine ⟨d, shown, hopen, hshown, hrange, ?_⟩
  refine (hover_range_contains_iff ws uri place hopen hline hshown).2.2 fun _ => ?_
  rw [hdtext, hrange]
  decide

/-- One letter further, behind the name, the range that is answered ends before the place. -/
theorem hover_range_ends_before_place :
    let uri : Uri := ⟨"file:///a.ls"⟩
    let text := "/PROG A\n/MN\n   1:  IF R[1:😀]=1,CALL A ;\n/END"
    let ws := (Workspace.empty.openDocument (.ofText uri .pendant text none)).1
    let place : Editor.Position := ⟨2, 26⟩
    (hover ws uri place).toOption.map (·.map fun shown =>
      (shown.range, shown.range.contains (Document.boundary ws.encoding text.toList place))) =
        some (some (⟨⟨2, 24⟩, ⟨2, 25⟩⟩, false)) := by
  decide +kernel

end RobotSource
