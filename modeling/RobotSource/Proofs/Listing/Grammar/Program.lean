import RobotSource.Proofs.Listing.Grammar.Document
import RobotSource.Proofs.Listing.Grammar.Instruction
/-!
# Comparing how listings are read

Where the words of two texts are read alike, line by line, and the lines end alike, the texts hold the
same listing up to a view of each side. What has to be known of lines and sections besides the words
is collected in `Typesetting`; the rules of the listing are then gone through once
(`Typesetting.program`).
-/

namespace RobotSource.Listing.Grammar

open Parsing Parsing.Parser Text

/-- The words that begin a section. -/
abbrev markers : List String := ["/PROG", "/MN", "/POS", "/END"]

/-- Two texts are set in lines alike: besides the words, the line breaks and the markers of the
sections stand at corresponding places. Lines that are read over are related by `L`. -/
structure Typesetting (R : Cursor → Cursor → Prop) (L : List Char → List Char → Prop)
    (v v' : View) : Prop extends Wording R R v v' where
  atEnd : ∀ c d, R c d → c.atEnd = d.atEnd
  atMarker : ∀ w ∈ markers, ∀ c d, R c d → atMarker w c.rest = atMarker w d.rest
  marker : ∀ w ∈ markers, Keeps R R (fun _ _ => True) (Parsing.keyword w) (Parsing.keyword w)
  digits : Keeps R R (fun _ _ => True) digits digits
  lineMark : ∀ x ∈ [':', ';'], Keeps R R (fun _ _ => True) (Parsing.char x) (Parsing.char x)
  lineBreak : Keeps R R (fun _ _ => True) lineBreak lineBreak
  line : Keeps R R L restOfLine restOfLine
  spacing : Keeps R R (fun _ _ => True) (takeWhile isSpacing) (takeWhile isSpacing)
  /-- related lines hold the same comment -/
  heading : ∀ a b, L a b →
    (attributeComment? a).map v.literal = (attributeComment? b).map v'.literal

namespace Typesetting

variable {R : Cursor → Cursor → Prop} {L : List Char → List Char → Prop} {v v' : View}
  (T : Typesetting R L v v')
include T

/-! ## Lines -/

theorem endOfText : Keeps R R (fun _ _ => True) Parsing.endOfText Parsing.endOfText := by
  intro c d hcd
  rw [Parsing.endOfText, Parsing.endOfText, T.atEnd c d hcd]
  split
  · exact .done trivial hcd
  · exact .failed

theorem lineEnd : Keeps R R (fun _ _ => True) Parsing.lineEnd Parsing.lineEnd :=
  T.lineBreak.orElse T.endOfText

theorem emptyLines : Keeps R R (fun _ _ => True) Grammar.emptyLines Grammar.emptyLines := by
  have hline : Agrees R R (Parsing.spaces *> Parsing.lineBreak) fun _ _ => True :=
    T.gap.pass T.lineBreak
  exact .pass hline.many (.pure trivial)

theorem linesUntil {w : String} [hw : Among w [markers]] :
    Keeps R R (List.Forall₂ L) (Grammar.linesUntil w) (Grammar.linesUntil w) := by
  refine .nested (s := false) (fun n p q h => ?_) fun _ _ hself => .cursor_bind fun c d hcd => ?_
  · rw [linesUntil_body, linesUntil_body]
    infer_instance
  rw [T.atEnd c d hcd, T.atMarker w hw.mem_row c d hcd]
  split
  · exact fun _ _ _ => .failed
  split
  · exact .pure .nil
  · exact T.line.bind fun _ _ hab => .pass T.lineEnd <| hself.bind fun _ _ habs =>
      .pure (.cons hab habs)

theorem markerLine {w : String} [hw : Among w [markers]] :
    Keeps R R (fun _ _ => True) (Grammar.markerLine w) (Grammar.markerLine w) :=
  .pass T.gap <| .pass (T.marker w hw.mem_row) <| .pass T.lineEnd (.pure trivial)

/-! ## Body lines -/

theorem instruction : Agrees R R Grammar.instruction fun a b => a.view v = b.view v' := by
  have hkind : Keeps R R (fun a b : InstructionKind => a.view v = b.view v') instructionKind
      instructionKind :=
    .orElse (.pass (T.lineMark ';' (by decide)).lookahead (.pure rfl))
      (T.flowInstruction.orElse T.otherInstruction)
  have hspanned := hkind.spanned (P := fun p q => v.position p = v'.position q) T.position T.position
  refine T.gap.pass <| .pass T.digits ?_
  refine .pass (T.lineMark ':' (by decide)) <| .pass T.gap ?_
  refine hspanned.bind fun x y hxy => .pass T.gap ?_
  refine .pass (T.lineMark ';' (by decide)) <| .pass T.gap <| .pass T.lineEnd <| .pure ?_
  obtain ⟨hview, hstart, hstop⟩ := hxy
  rw [Instruction.view, Instruction.view, hview]
  exact congrArg (Instruction.mk _) (congrArg₂ Span.mk hstart hstop)

theorem bodyLines : Keeps R R
    (fun is js => is.map (Instruction.view v) = js.map (Instruction.view v')) Grammar.bodyLines
    Grammar.bodyLines := by
  refine .nested (s := false) (fun _ _ _ _ => inferInstance) fun _ _ hself =>
    .pass T.emptyLines <| .cursor_bind fun c d hcd => ?_
  rw [T.atEnd c d hcd, T.atMarker "/POS" (by decide) c d hcd, T.atMarker "/END" (by decide) c d hcd]
  split
  · exact .pure rfl
  · refine T.instruction.bind fun i j hij => hself.bind fun is js hijs => .pure ?_
    rw [List.map_cons, List.map_cons, hij, hijs]

/-! ## Whole listings -/

theorem headPart : Keeps R R
    (fun a b => v.name a.1.1 = v'.name b.1.1 ∧ a.1.2.map v.name = b.1.2.map v'.name ∧
      a.2.map v.literal = b.2.map v'.literal) Grammar.headPart Grammar.headPart := by
  have htitle : Keeps R R
      (fun a b => v.name a.1 = v'.name b.1 ∧ a.2.map v.name = b.2.map v'.name) titleLine
      titleLine := by
    refine .pass (T.marker "/PROG" (by decide)) ?_
    refine T.identifier.bind fun _ _ hab => .pass T.gap ?_
    refine .bind (.maybe <| T.identifier.bind fun _ _ hst => .pass T.gap (.pure hst))
      fun _ _ hst => .pass T.lineEnd <| .pure ⟨hab, map_eq_of_rel hst⟩
  refine .pass T.emptyLines <| htitle.bind fun t t' ht => T.linesUntil.bind fun as bs habs =>
    .pass T.markerLine <| .pure ⟨ht.1, ht.2, ?_⟩
  have hattributes : (as.filterMap attributeComment?).map v.literal =
      (bs.filterMap attributeComment?).map v'.literal := by
    rw [List.map_filterMap, List.map_filterMap]
    induction habs with
    | nil => rfl
    | cons hab _ ih => rw [List.filterMap_cons, List.filterMap_cons, T.heading _ _ hab, ih]
  rw [← List.getLast?_map, ← List.getLast?_map, hattributes]

theorem positionData :
    Keeps R R (fun _ _ => True) Grammar.positionData Grammar.positionData := by
  refine .cursor_bind fun c d hcd => ?_
  rw [T.atMarker "/POS" (by decide) c d hcd]
  split
  · exact .pass T.markerLine <| .pass T.linesUntil (.pure trivial)
  · exact .pure trivial

theorem ending :
    Keeps R R (fun p q => v.position p = v'.position q) Grammar.ending Grammar.ending := by
  have hmore : Keeps R R (fun _ _ => True) nothingMore nothingMore := by
    refine .pass T.spacing <| .cursor_bind fun c d hcd => ?_
    rw [T.atEnd c d hcd]
    split
    · exact .pure trivial
    · exact fun _ _ _ => .aborted
  exact .pass T.gap <| .pass (T.marker "/END" (by decide)) <|
    (Keeps.position T.position).bind fun _ _ hstop => .pass hmore (.pure hstop)

/-- **Where the words are read alike and the lines end alike, so is every listing.** -/
theorem program :
    Keeps R R (fun p q => p.view v = q.view v') Grammar.program Grammar.program := by
  rw [program_eq]
  refine (Keeps.position (P := fun p q => v.position p = v'.position q) T.position).bind
    fun s s' hs => T.headPart.bind fun a b hab => T.bodyLines.bind fun is js hijs =>
    .pass T.positionData <| T.ending.bind fun t t' ht => .pure ?_
  simp only [Program.view, View.span, hab.1, hab.2.1, hab.2.2, hijs, hs, ht]

end Typesetting

end RobotSource.Listing.Grammar
