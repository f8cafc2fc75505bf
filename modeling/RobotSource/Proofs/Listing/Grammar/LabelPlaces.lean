import RobotSource.Proofs.Listing.Grammar.Spans
import RobotSource.Proofs.Listing.Labels
/-!
# Places of labels

A label behind a skip keyword begins behind the beginning of its option, since the keyword is not
empty. So the labels of a motion do not touch each other: a place that counts as in one of them, its end
included, is in no other. Together with the exact spans of a listing this says what a label is found
by (`Program.labelsPlaced_of_parse`): the row leads to the instruction, and the column to the label.
-/

namespace RobotSource

/-- Columns are counted from one. -/
theorem Position.column_afterAll_pos {p : Position} {u : List Char} (h : 0 < p.column) :
    0 < (p.afterAll u).column := by
  induction u generalizing p with
  | nil => exact h
  | cons x u ih =>
    refine ih ?_
    rw [after]
    split <;> simp

theorem Parsing.Cursor.Of.position_pos {text : List Char} {c : Cursor} (h : c.Of text) :
    0 < c.position.line ∧ 0 < c.position.column := by
  obtain ⟨u, hu⟩ := h
  have hfirst := Position.le_iff.1 hu.le
  refine ⟨?_, hu.position ▸ Position.column_afterAll_pos Nat.one_pos⟩
  simp only [Position.first] at hfirst
  omega

theorem Parsing.Node.Exact.child {text : List Char} {row : Nat} {span : Span} {shown : Shown}
    {children : List Node} {n : Node} (h : (Node.mk span shown children).Exact text row)
    (hn : n ∈ children) :
    n.Exact text row ∧ span.start ≤ n.span.start ∧ n.span.stop ≤ span.stop := by
  cases h with
  | mk _ _ _ _ hinside _ hexact => exact ⟨hexact n hn, hinside n hn⟩

namespace Listing

open Parsing List

/-! ## What a label is found by -/

/-- The labels of an instruction stand in its row, one behind the other with something between. -/
structure Instruction.LabelsPlaced (i : Instruction) : Prop where
  row_pos : 0 < i.row
  inRow : ∀ r, i.kind.Mentions r → r.span.start.line = i.row ∧ r.span.stop.line = i.row
  column_pos : ∀ r, i.kind.Mentions r → 0 < r.span.stop.column
  apart : i.labelReferences.Pairwise fun a b => a.span.stop < b.span.start

/-- The instructions stand in rows of their own, and in its row each has its labels in place. -/
structure Program.LabelsPlaced (p : Program) : Prop where
  rows : p.instructions.Pairwise fun i j => i.row < j.row
  labels : ∀ i ∈ p.instructions, i.LabelsPlaced

/-- In a motion option, the label begins behind the beginning of the option. -/
def MotionOption.LabelBehind (o : MotionOption) : Prop :=
  ∀ r, o.kind.Mentions r → o.span.start < r.span.start

/-- The options of a motion; other instructions have none. -/
def InstructionKind.options : InstructionKind → List MotionOption
  | .motion m => m.options
  | _ => []

/-- In every motion option, the label begins behind the beginning of the option. -/
def InstructionKind.LabelsBehind (k : InstructionKind) : Prop := ∀ o ∈ k.options, o.LabelBehind

variable {text : List Char} {i : Instruction} {r : LabelReference}

theorem ActionKind.Mentions.mem_nodes {k : ActionKind} (h : k.Mentions r) : r.node ∈ k.nodes := by
  cases h
  exact mem_singleton.2 rfl

theorem MotionOptionKind.Mentions.mem_nodes {k : MotionOptionKind} (h : k.Mentions r) :
    r.node ∈ k.nodes := by
  cases h <;> exact mem_singleton.2 rfl

theorem Motion.mem_nodes {m : Motion} {o : MotionOption} (h : o ∈ m.options) :
    o.node ∈ m.nodes :=
  mem_append_right _ (mem_flatMap.2 ⟨o, h, mem_singleton.2 rfl⟩)

/-- A label is a node of its instruction, or one of an action or a motion option that is. -/
theorem Instruction.exact_of_mentions (h : i.node.Exact text i.row) (hr : i.kind.Mentions r) :
    r.node.Exact text i.row ∧ i.span.start ≤ r.span.start := by
  have hchild : ∀ n ∈ i.kind.nodes, n.Exact text i.row ∧ i.span.start ≤ n.span.start :=
    fun n hn => ⟨(h.child hn).1, (h.child hn).2.1⟩
  have haction : ∀ a : Action, a.node ∈ i.kind.nodes → a.kind.Mentions r →
      r.node.Exact text i.row ∧ i.span.start ≤ r.span.start := by
    intro a ha hr
    obtain ⟨hexact, hle⟩ := hchild _ ha
    obtain ⟨hinner, hinside, -⟩ := hexact.child hr.mem_nodes
    exact ⟨hinner, hle.trans hinside⟩
  obtain ⟨kind, span⟩ := i
  cases hr with
  | jump => exact hchild _ (mem_singleton.2 rfl)
  | motion ho hr =>
    obtain ⟨hexact, hle⟩ := hchild _ (Motion.mem_nodes ho)
    obtain ⟨hinner, hinside, -⟩ := hexact.child hr.mem_nodes
    exact ⟨hinner, hle.trans hinside⟩
  | ifAction hr => exact haction _ (by simp [InstructionKind.nodes]) hr
  | select hr => exact haction _ (by simp [InstructionKind.nodes, CaseBranch.nodes]) hr
  | case hr => exact haction _ (by simp [InstructionKind.nodes, CaseBranch.nodes]) hr
  | caseElse hr => exact haction _ (by simp [InstructionKind.nodes]) hr
  | timeout => exact hchild _ (by simp [InstructionKind.nodes])

/-- Only a motion has more than one label. -/
theorem Instruction.pairwise_labelReferences {R : LabelReference → LabelReference → Prop}
    (h : ∀ m, i.kind = .motion m → (m.options.filterMap optionLabel?).Pairwise R) :
    i.labelReferences.Pairwise R := by
  rw [labelReferences]
  split
  · exact pairwise_singleton _ _
  · exact h _ ‹_›
  · exact pairwise_singleton _ _
  · split
    · exact pairwise_singleton _ _
    · exact .nil

theorem Instruction.pairwise_options {m : Motion} (h : i.node.Exact text i.row)
    (hm : i.kind = .motion m) :
    m.options.Pairwise fun o o' => o.span.stop ≤ o'.span.start := by
  obtain ⟨kind, span⟩ := i
  cases hm
  cases h with
  | mk _ _ _ _ _ hapart _ =>
    have hoptions := (pairwise_append.1 hapart).2.1
    rwa [← map_eq_flatMap, pairwise_map] at hoptions

/-- **The labels of an instruction are in place** if its spans are exact and its skip labels begin
behind their options. -/
theorem Instruction.labelsPlaced (hpos : 0 < i.span.start.line ∧ 0 < i.span.start.column)
    (hexact : i.node.Exact text i.row) (hbehind : i.kind.LabelsBehind) : i.LabelsPlaced where
  row_pos := hpos.1
  inRow r hr := (exact_of_mentions hexact hr).1.rows
  column_pos r hr := by
    obtain ⟨hnode, hstart⟩ := exact_of_mentions hexact hr
    have hrows := hnode.rows
    have hle := Position.le_iff.1 (hstart.trans hnode.start_le_stop)
    simp only [LabelReference.node, Node.span, row] at hrows hle
    omega
  apart := by
    refine pairwise_labelReferences fun m hm => pairwise_filterMap.2 ?_
    refine (pairwise_options hexact hm).imp_of_mem fun {o o'} ho ho' happart a ha b hb => ?_
    have hmem : o.node ∈ i.kind.nodes := hm ▸ Motion.mem_nodes ho
    have hinside := ((hexact.child hmem).1.child (optionLabel?_eq_some_iff.1 ha).mem_nodes).2.2
    have hlt := hbehind o' (hm ▸ ho') b (optionLabel?_eq_some_iff.1 hb)
    exact (hinside.trans happart).trans_lt hlt

/-! ## Labels behind a keyword -/

namespace Grammar

open Parsing.Parser Text

variable {c d : Cursor}

theorem start_labelReference (h : labelReference c = .done r d) : r.span.start = c.position := by
  obtain ⟨x, c₁, hlexeme, h⟩ := bind_eq_done.1 h
  cases h
  obtain ⟨y, c₂, hspanned, _, c₃, -, h⟩ := bind₂_eq_done.1 hlexeme
  cases h
  obtain ⟨target, -, rfl⟩ := spanned_eq_done.1 hspanned
  rfl

theorem lt_of_skipTo {word : String} [Worded word] (h : skipTo word c = .done r d) :
    c.position < r.span.start := by
  obtain ⟨_, c₁, hkeyword, _, c₂, hsymbol, h⟩ := bind₂_eq_done.1 h
  rw [start_labelReference h]
  exact (lt_of_done hkeyword).trans_le (along_of_done hsymbol).le

theorem labelBehind_motionOption {o : MotionOption} (h : motionOption c = .done o d) :
    o.LabelBehind := by
  obtain ⟨x, c₁, hspanned, h⟩ := bind_eq_done.1 h
  cases h
  obtain ⟨kind, hkind, rfl⟩ := spanned_eq_done.1 hspanned
  rintro r (hr : kind.Mentions r)
  rcases orElse_eq_done hkind with h | h
  · obtain ⟨label, hlabel, rfl⟩ := map_eq_done.1 h
    cases hr
    exact lt_of_skipTo hlabel
  rcases orElse_eq_done h with h | h
  · obtain ⟨label, c₂, hlabel, _, c₃, -, h⟩ := bind₂_eq_done.1 h
    cases h
    cases hr
    exact lt_of_skipTo hlabel
  -- the other options have no label
  rcases orElse_eq_done h with h | h
  · obtain ⟨_, -, rfl⟩ := map_eq_done.1 h
    cases hr
  rcases orElse_eq_done h with h | h
  · obtain ⟨_, -, rfl⟩ := map_eq_done.1 h
    cases hr
  rcases orElse_eq_done h with h | h
  · obtain ⟨_, -, rfl⟩ := map_eq_done.1 h
    cases hr
  rcases orElse_eq_done h with h | h
  · obtain ⟨_, _, -, h⟩ := seqRight_eq_done.1 h
    cases h
    cases hr
  · obtain ⟨_, _, -, _, _, -, h⟩ := bind₂_eq_done.1 h
    cases h
    cases hr

/-- The motion options of an instruction are to be gathered. -/
def motionOptions : Harvest MotionOption :=
  ⟨fun _ => [], fun _ _ => [], fun _ => [], fun _ => [], fun _ => [], fun o => [o]⟩

theorem motionOptions_instructionKind (k : InstructionKind) :
    motionOptions.instructionKind k = k.options := by
  cases k with
  | motion m =>
    obtain ⟨_, _, speed, termination, _⟩ := m
    cases speed <;> cases termination <;> exact flatMap_singleton' _
  | call callee => exact flatMap_eq_nil_iff.2 fun _ _ => rfl
  | run callee => exact flatMap_eq_nil_iff.2 fun _ _ => rfl
  | waitUntil _ timeout => cases timeout <;> rfl
  | _ => rfl

/-- What is asked of the options gathered, wherever the cursor stands. -/
def OptionsBehind (_ : Unit) (os : List MotionOption) (_ : Cursor) : Prop := ∀ o ∈ os, o.LabelBehind

theorem optionsBehind_parts : GathersParts OptionsBehind motionOptions := by
  have hleaves {α : Type} {p : Parser α} : Leaves OptionsBehind p := fun _ _ _ _ _ hos _ => hos
  have hnothing {α : Type} {p : Parser α} : Gathers OptionsBehind p fun _ => [] :=
    .of_leaves hleaves fun _ => rfl
  exact {
    row := hleaves
    forget := fun _ => hleaves
    operand := fun _ => hnothing
    signed := fun _ => hnothing
    join := fun hos => by simpa [motionOptions] using hos
    name := hnothing
    label := hnothing
    definition := hnothing
    action := hnothing
    option := fun _ _ _ o _ hos ho =>
      forall_mem_append.2 ⟨hos, by simpa [motionOptions] using labelBehind_motionOption ho⟩ }

/-- **In every motion option, the label begins behind the beginning of the option.** -/
theorem labelsBehind_instructionKind {k : InstructionKind} (h : instructionKind c = .done k d) :
    k.LabelsBehind := by
  have hos : OptionsBehind () ([] ++ motionOptions.instructionKind k) d :=
    optionsBehind_parts.instructionKind () [] c k d (forall_mem_nil _) h
  rwa [nil_append, motionOptions_instructionKind] at hos

theorem labelsPlaced_instruction (hc : c.Of text)
    (h : instruction c = .done i d) : i.LabelsPlaced := by
  obtain ⟨c₁, c₂, c₃, _, hbefore, hkind, hspan, -, -⟩ := exists_kind_of_instruction h
  refine Instruction.labelsPlaced ?_ (instruction_eq_done hc h).2.2.1
    (labelsBehind_instructionKind hkind)
  rw [hspan]
  exact (hc.over hbefore).position_pos

theorem labelsPlaced_bodyLines {is : List Instruction} (hc : c.Of text)
    (h : bodyLines c = .done is d) : ∀ i ∈ is, i.LabelsPlaced := by
  refine Yields.nested (A := fun b c => c = b ∧ b.Of text)
    (B := fun _ is _ => ∀ i ∈ is, i.LabelsPlaced) (fun self hself b => ?_) c c is d ⟨rfl, hc⟩ h
  rintro _ is d ⟨rfl, hc⟩ hdone
  obtain ⟨_, c₁, hempty, _, _, hcursor, hdone⟩ := bind₂_eq_done.1 hdone
  cases hcursor
  split at hdone
  · cases hdone
    simp
  · obtain ⟨i, c₂, hi, is, c₃, his, hdone⟩ := bind₂_eq_done.1 hdone
    cases hdone
    have hc₁ := hc.over (along_of_done hempty)
    have hc₂ := hc₁.over (instruction_eq_done hc₁ hi).1
    exact forall_mem_cons.2 ⟨labelsPlaced_instruction hc₁ hi, hself c₂ c₂ is d ⟨rfl, hc₂⟩ his⟩

end Grammar

/-- **A listing that was read has its labels in place.** -/
theorem Program.labelsPlaced_of_parse {text : String} {p : Program}
    (h : Program.parse text = .ok p) : p.LabelsPlaced := by
  obtain ⟨d, hdone⟩ := Parsing.Parser.run_eq_ok.1 h
  have hstart : (Cursor.ofText text).Of text.toList := ⟨[], .refl _⟩
  obtain ⟨first, last, stop, hhead, hbody, -, -⟩ := Grammar.exists_body_of_program hdone
  exact ⟨(Grammar.program_eq_done hstart hdone).rows,
    Grammar.labelsPlaced_bodyLines (hstart.over hhead) hbody⟩

end Listing

end RobotSource
