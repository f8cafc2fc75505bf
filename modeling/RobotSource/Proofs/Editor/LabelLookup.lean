import RobotSource.Proofs.Editor.Following
import RobotSource.Proofs.Editor.HoverRange
import RobotSource.Proofs.Listing.Grammar.LabelPlaces
import RobotSource.Proofs.Workspace.Opened
/-!
# Looking up labels

A place on a label leads to the first definition of its number in the same program. The row of the
place leads to the instruction with the label, the column to the label itself
(`Program.LabelsPlaced.listingReference?_eq`), and every listing that is stored in an opened document
has its labels in place, since it was read from some text (`Document.labelsPlaced_invariant`).

Of the other documents of the workspace only the name behind a call asks. Everywhere else the answer
is that of the document alone (`Document.reference?`).
-/

namespace RobotSource

open Text Editor List

/-! ## The label under a place -/

namespace Listing

variable {i : Instruction} {r : LabelReference} {p : Program} {place : Editor.Position}

/-- A place is in the range of a label if it is in the row of the instruction and in the columns of
the label. -/
theorem Instruction.LabelsPlaced.contains_iff (h : i.LabelsPlaced) (hr : i.kind.Mentions r) :
    (Range.ofSpan r.span).contains place = true ↔ place.line + 1 = i.row ∧
      r.span.start.column ≤ place.character + 1 ∧ place.character + 1 ≤ r.span.stop.column := by
  have hrow := h.row_pos
  have hcolumn := h.column_pos r hr
  obtain ⟨hstart, hstop⟩ := h.inRow r hr
  simp only [Range.contains, Range.ofSpan, Position.ofSource, hstart, hstop, Bool.not_eq_true',
    Bool.or_eq_false_iff, Bool.and_eq_false_iff, decide_eq_false_iff_not, beq_eq_false_iff_ne]
  omega

/-- The only label of the instruction that holds a place is the first one that is found. -/
theorem Instruction.LabelsPlaced.find?_labelReferences (h : i.LabelsPlaced)
    (hr : i.kind.Mentions r) (hplace : (Range.ofSpan r.span).contains place = true) :
    i.labelReferences.find? (fun a => (Range.ofSpan a.span).contains place) = some r := by
  refine find?_eq_some_of_pairwise (mem_labelReferences_iff.2 hr) hplace ?_
  refine h.apart.imp_of_mem fun {a b} ha hb hapart hcontains => Bool.eq_false_iff.2 fun hboth => ?_
  rw [mem_labelReferences_iff] at ha hb
  have ha' := (h.contains_iff ha).1 hcontains
  have hb' := (h.contains_iff hb).1 hboth
  have hrows := And.intro (h.inRow a ha) (h.inRow b hb)
  rw [Position.lt_iff] at hapart
  omega

theorem Program.LabelsPlaced.instructionAt? (h : p.LabelsPlaced) (hi : i ∈ p.instructions) :
    p.instructionAt? i.row = some i := by
  refine find?_eq_some_of_pairwise hi (by simp) (h.rows.imp fun {x y} hlt hx => ?_)
  simp only [beq_iff_eq, beq_eq_false_iff_ne] at hx ⊢
  omega

/-- **A place on a label is taken for this label**, whatever else is in the program. -/
theorem Program.LabelsPlaced.listingReference?_eq (h : p.LabelsPlaced) (ws : Workspace)
    (hi : i ∈ p.instructions) (hr : i.kind.Mentions r)
    (hplace : (Range.ofSpan r.span).contains place = true) :
    listingReference? ws p place =
      (r.number?.bind p.findLabel?).map fun d => ⟨.label d, .ofSpan r.span⟩ := by
  have hlabels := h.labels i hi
  have hrow : p.instructionAt? (place.line + 1) = some i := by
    rw [((hlabels.contains_iff hr).1 hplace).1, h.instructionAt? hi]
  simp only [listingReference?, hrow, Option.bind_eq_bind, Option.bind_some,
    Instruction.call?_eq_none_of_mentions hr, labelReference?,
    hlabels.find?_labelReferences hr hplace]
  rw [Option.map_bind]
  refine Option.bind_congr fun number _ => ?_
  rw [Function.comp_apply, Option.map_eq_bind]
  rfl

end Listing

/-! ## Stored programs -/

/-- Whatever an opened document goes through, a listing that it stores has its labels in place. -/
theorem Document.labelsPlaced_invariant :
    Document.Invariant fun d => ∀ p, d.source = some (.pendant p) → p.LabelsPlaced where
  ofText uri language text version p hp := by cases hp
  applyChange enc d change h p hp := by
    obtain ⟨_, _, heq⟩ := exists_applyChange enc d change
    rw [heq] at hp
    exact h p hp
  setVersion d version h := h
  parse d h p hp := by
    rw [source_parse] at hp
    cases hparse : Source.parse d.language d.text with
    | error e =>
      rw [hparse] at hp
      exact h p hp
    | ok source =>
      rw [hparse] at hp
      cases hp
      rcases Source.parse_cases hparse with ⟨_, -, heq, hlisting⟩ | ⟨_, -, heq, -⟩ <;> cases heq
      exact Listing.Program.labelsPlaced_of_parse hlisting

/-! ## Answers of a document alone -/

variable {ws : Workspace} {uri : Uri} {d : Document} {place : Editor.Position}

/-- The place is on the name of a program that the stored listing calls or starts. -/
def Document.OnProgramName (d : Document) (place : Editor.Position) : Prop :=
  ∃ p i c, d.source = some (.pendant p) ∧ i ∈ p.instructions ∧
    Listing.InstructionKind.Names c i.kind ∧ (Range.ofSpan c.nameSpan).contains place = true

/-- What the token at a place refers to within the document: a label of its listing, or a declaration
of its Karel program. -/
def Document.reference? (d : Document) (place : Editor.Position) : Option Reference :=
  match d.source with
  | some (.pendant p) =>
    (p.instructionAt? (place.line + 1)).bind fun i => labelReference? p i.labelReferences place
  | some (.karel p) => karelReference? d p place
  | none => none

/-- The target is part of the document itself. -/
def Target.IsLocal : Target → Prop
  | .program _ => False
  | .label _ => True
  | .declaration _ => True

theorem Target.IsLocal.markdown_eq {target : Target} (h : target.IsLocal) (ws ws' : Workspace) :
    target.markdown ws = target.markdown ws' := by
  cases target with
  | program document => cases h
  | label definition => rfl
  | declaration declared => rfl

/-- What a document answers alone is part of it. -/
theorem Document.isLocal_of_reference? {r : Reference} (h : d.reference? place = some r) :
    r.target.IsLocal := by
  unfold reference? at h
  split at h
  · obtain ⟨i, -, h⟩ := Option.bind_eq_some_iff.1 h
    obtain ⟨reference, -, h⟩ := Option.bind_eq_some_iff.1 h
    obtain ⟨number, -, h⟩ := Option.bind_eq_some_iff.1 h
    obtain ⟨definition, -, h⟩ := Option.bind_eq_some_iff.1 h
    cases h
    trivial
  · obtain ⟨line, -, h⟩ := Option.bind_eq_some_iff.1 h
    obtain ⟨word, -, h⟩ := Option.bind_eq_some_iff.1 h
    obtain ⟨declared, -, h⟩ := Option.bind_eq_some_iff.1 h
    cases h
    trivial
  · cases h

/-- **Off the names behind calls, the workspace plays no part.** -/
theorem resolve_eq_reference? (hopen : ws.entry uri = .ok d)
    (hname : ¬d.OnProgramName (Document.charPosition ws.encoding d.text place)) :
    resolve ws uri place =
      .ok (d.reference? (Document.charPosition ws.encoding d.text place)) := by
  cases hsource : d.source with
  | none => simp only [resolve_of_entry hopen, Document.reference?, hsource]
  | some source =>
    cases source with
    | karel p => simp only [resolve_of_entry hopen, Document.reference?, hsource]
    | pendant p =>
      simp only [resolve_of_entry hopen, Document.reference?, hsource]
      refine congrArg Except.ok (Option.bind_congr fun i hi => ?_)
      split
      · rename_i c hcall
        -- the instruction has a call, but its name is elsewhere
        refine if_neg fun hcontains => hname ⟨p, i, c, hsource, mem_of_find?_eq_some hi, ?_⟩
        exact ⟨Listing.Instruction.names_of_call? hcall, hcontains⟩
      · rfl

/-- Where the workspace plays no part, a hover is made of what the document answers. -/
theorem hover_eq_reference? (hopen : ws.entry uri = .ok d)
    (hname : ¬d.OnProgramName (Document.charPosition ws.encoding d.text place)) (ws' : Workspace) :
    hover ws uri place =
      .ok ((d.reference? (Document.charPosition ws.encoding d.text place)).map fun r =>
        ⟨r.target.markdown ws', r.range⟩) := by
  rw [hover, resolve_eq_reference? hopen hname]
  refine congrArg Except.ok (Option.map_congr fun r hr => ?_)
  rw [(Document.isLocal_of_reference? hr).markdown_eq ws ws']

theorem resolve_of_error {e : WorkspaceError} (h : ws.entry uri = .error e) :
    resolve ws uri place = .error e := by
  rw [resolve, h]
  rfl

theorem hover_of_error {e : WorkspaceError} (h : ws.entry uri = .error e) :
    hover ws uri place = .error e := by
  rw [hover, resolve_of_error h]
  rfl

theorem definition_of_resolve {answer : Option Reference}
    (h : resolve ws uri place = .ok answer) :
    definition ws uri place = .ok (answer.map fun r => r.target.location uri) := by
  rw [definition, h]
  rfl

/-- A place on a label leads to what its number is found to lead to. -/
theorem definition_of_mentions {p : Listing.Program} {i : Listing.Instruction}
    {r : Listing.LabelReference} (hws : ws.Reachable) (hopen : ws.entry uri = .ok d)
    (hsource : d.source = some (.pendant p)) (hi : i ∈ p.instructions) (hr : i.kind.Mentions r)
    (hplace : (Range.ofSpan r.span).contains
      (Document.charPosition ws.encoding d.text place) = true) :
    definition ws uri place =
      .ok ((r.number?.bind p.findLabel?).map fun e => ⟨uri.text, .ofSpan e.span⟩) := by
  have hplaced : p.LabelsPlaced := hws.opened Document.labelsPlaced_invariant uri.text d
    (Workspace.entry_eq_ok_iff.1 hopen) p hsource
  have hresolve : resolve ws uri place =
      .ok ((r.number?.bind p.findLabel?).map fun e => ⟨.label e, .ofSpan r.span⟩) := by
    simp only [resolve_of_entry hopen, hsource, hplaced.listingReference?_eq ws hi hr hplace]
  rw [definition_of_resolve hresolve, Option.map_map]
  rfl

/-- **Labels are looked up in their own program.** In every workspace that can come about, a place on
a label of the listing stored in an opened document leads to the first definition of its number in
this listing, and to nothing if the number is not defined or known only when the program runs. Off the
names behind calls, hovers and definitions are the same in every other workspace that has the same
document and encoding. -/
theorem labels_found_locally :
    (∀ (ws : Workspace) (uri : Uri) (d : Document) (p : Listing.Program) (i : Listing.Instruction)
      (r : Listing.LabelReference) (place : Editor.Position), ws.Reachable → ws.entry uri = .ok d →
      d.source = some (.pendant p) → i ∈ p.instructions → i.kind.Mentions r →
      (Range.ofSpan r.span).contains (Document.charPosition ws.encoding d.text place) = true →
      (∀ value, r.target = .indirect value → definition ws uri place = .ok none) ∧
      ∀ number, r.target = .direct number →
        (∀ e, p.FirstDefinition number e →
          definition ws uri place = .ok (some ⟨uri.text, .ofSpan e.span⟩)) ∧
        ((∀ j ∈ p.instructions, ¬j.Defines number) → definition ws uri place = .ok none)) ∧
    ∀ (ws ws' : Workspace) (uri : Uri) (place : Editor.Position), ws.entry uri = ws'.entry uri →
      ws.encoding = ws'.encoding →
      (∀ d, ws.entry uri = .ok d →
        ¬d.OnProgramName (Document.charPosition ws.encoding d.text place)) →
      hover ws uri place = hover ws' uri place ∧
        definition ws uri place = definition ws' uri place := by
  refine ⟨?_, ?_⟩
  · intro ws uri d p i r place hws hopen hsource hi hr hplace
    have hanswer := definition_of_mentions hws hopen hsource hi hr hplace
    refine ⟨fun value htarget => ?_, fun number htarget => ?_⟩
    · rw [hanswer, Listing.LabelReference.number?, htarget]
      rfl
    · rw [hanswer, Listing.LabelReference.number?_eq_some_iff.2 htarget, Option.bind_some]
      refine ⟨fun e he => ?_, fun hnone => ?_⟩
      · rw [he.findLabel?, Option.map_some]
      · rw [Listing.Program.findLabel?_eq_none hnone, Option.map_none]
  · intro ws ws' uri place hentry hencoding hname
    cases hopen : ws.entry uri with
    | error e =>
      have hopen' : ws'.entry uri = .error e := hentry ▸ hopen
      refine ⟨?_, ?_⟩
      · rw [hover_of_error hopen, hover_of_error hopen']
      · rw [definition, definition, resolve_of_error hopen, resolve_of_error hopen']
    | ok d =>
      have hopen' : ws'.entry uri = .ok d := hentry ▸ hopen
      have hname' : ¬d.OnProgramName (Document.charPosition ws'.encoding d.text place) :=
        hencoding ▸ hname d hopen
      refine ⟨?_, ?_⟩
      · rw [hover_eq_reference? hopen (hname d hopen) ws, hover_eq_reference? hopen' hname' ws,
          hencoding]
      · rw [definition_of_resolve (resolve_eq_reference? hopen (hname d hopen)),
          definition_of_resolve (resolve_eq_reference? hopen' hname'), hencoding]

/-- Two labels in one row, the second behind a character of two units and without a blank between its
option and the first, and a number that is defined twice. The place is just behind the second label. -/
theorem labels_found_locally_two_skips :
    let uri : Uri := ⟨"file:///a.ls"⟩
    let text := "/PROG A\n/MN\n 1:L P[1] 9sec FINE Skip,LBL[2:😀]SkipJump,LBL[7] ;\n" ++
      " 2: LBL[7] ;\n 3: LBL[7:again] ;\n/END"
    let ws := Operation.run .empty (.openText uri .pendant text none)
    let ws' := Operation.run ws (.openText ⟨"file:///b.ls"⟩ .pendant "/PROG B\n/MN\n/END" none)
    let place : Editor.Position := ⟨2, 49⟩
    definition ws uri place = .ok (some ⟨uri.text, ⟨⟨3, 4⟩, ⟨3, 10⟩⟩⟩) ∧
      hover ws uri place = hover ws' uri place ∧
      definition ws uri place = definition ws' uri place := by
  intro uri text ws ws' place
  let fresh := (Document.ofText uri .pendant text none).parse.1
  have hopen : ws.entry uri = .ok fresh := by
    rw [Workspace.entry_eq_ok_iff]
    exact Workspace.opened_openDocument ▸ Table.find?_insert_self
  have hopen' : ws'.entry uri = .ok fresh := by
    have hopened : ws'.opened = ws.opened.insert "file:///b.ls" _ := Workspace.opened_openDocument
    rw [Workspace.entry_eq_ok_iff] at hopen ⊢
    rw [hopened, Table.find?_insert, if_neg (by decide), hopen]
  have hview : (Listing.Program.parse text).toOption.map (fun p => p.instructions.map fun i =>
      (i.labelReferences.map fun r => (r.number?, r.span), Listing.Program.labelDefinition? i)) =
      some [([(some 2, ⟨⟨3, 26⟩, ⟨3, 34⟩⟩), (some 7, ⟨⟨3, 43⟩, ⟨3, 49⟩⟩)], none),
        ([], some ⟨7, none, ⟨⟨4, 5⟩, ⟨4, 11⟩⟩⟩), ([], some ⟨7, some "again", ⟨⟨5, 5⟩, ⟨5, 17⟩⟩⟩)] := by
    decide +kernel
  obtain ⟨p, hp, hview⟩ := Option.map_eq_some_iff.1 hview
  have hsource : fresh.source = some (.pendant p) := by
    rw [Document.source_parse, Document.ofText, Source.parse, eq_ok_of_toOption hp]
    rfl
  obtain ⟨skips, rest, hinstructions, hskips, hrest⟩ := map_eq_cons_iff.1 hview
  obtain ⟨first, rest, rfl, hfirst, hrest⟩ := map_eq_cons_iff.1 hrest
  obtain ⟨second, rest, rfl, hsecond, hrest⟩ := map_eq_cons_iff.1 hrest
  obtain rfl := map_eq_nil_iff.1 hrest
  obtain ⟨hreferences, hplain⟩ := Prod.mk.inj hskips
  obtain ⟨a, references, hlabels, -, hreferences⟩ := map_eq_cons_iff.1 hreferences
  obtain ⟨b, references, rfl, hb, -⟩ := map_eq_cons_iff.1 hreferences
  obtain ⟨hnumber, hspan⟩ := Prod.mk.inj hb
  have hmentions : skips.kind.Mentions b :=
    Listing.Instruction.mem_labelReferences_iff.1 (hlabels ▸ by simp)
  have hlabel := Listing.Program.labelDefinition?_eq_some_iff.1 (Prod.mk.inj hfirst).2
  have hlabel' := Listing.Program.labelDefinition?_eq_some_iff.1 (Prod.mk.inj hsecond).2
  have hcontains : (Range.ofSpan b.span).contains
      (Document.charPosition ws.encoding fresh.text place) = true := by
    rw [hspan, Document.text_parse]
    decide
  have hdefinition : p.FirstDefinition 7 ⟨7, none, ⟨⟨4, 5⟩, ⟨4, 11⟩⟩⟩ := by
    refine ⟨[skips], first, [second], hinstructions, hlabel, rfl, ?_⟩
    rintro _ (_ | ⟨_, ⟨⟩⟩) ⟨d, hd, -⟩
    rw [Listing.Program.labelDefinition?_eq_some_iff.2 hd] at hplain
    cases hplain
  have hname : ∀ d, ws.entry uri = .ok d →
      ¬d.OnProgramName (Document.charPosition ws.encoding d.text place) := by
    rintro d hd ⟨q, i, c, hq, hi, hc, -⟩
    obtain rfl : fresh = d := Except.ok.inj (hopen.symm.trans hd)
    cases hsource.symm.trans hq
    simp only [hinstructions, mem_cons, not_mem_nil, or_false] at hi
    rcases hi with rfl | rfl | rfl
    · exact hmentions.not_names hc
    · rw [hlabel] at hc
      cases hc
    · rw [hlabel'] at hc
      cases hc
  refine ⟨?_, labels_found_locally.2 ws ws' uri place (hopen.trans hopen'.symm) rfl hname⟩
  have hanswer := labels_found_locally.1 ws uri fresh p skips b place (.run _ .empty) hopen hsource
    (by simp [hinstructions]) hmentions hcontains
  exact (hanswer.2 7 (Listing.LabelReference.number?_eq_some_iff.1 hnumber)).1 _ hdefinition

end RobotSource
