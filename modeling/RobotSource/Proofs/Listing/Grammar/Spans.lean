import RobotSource.Proofs.Listing.Grammar.Document
import RobotSource.Proofs.Listing.Grammar.Harvest
import RobotSource.Proofs.Listing.Grammar.Progress
import RobotSource.Proofs.Listing.Outline
/-!
# Spans of a listing

The grammar puts every node in its place (`Adds`, rule by rule), from the leaves, which yield the
text they read, up to the body lines, each of which ends in a line break of its own. The result is
`Program.spansExact_of_parse`: whatever text is read as a listing, all spans of the listing are exact.
-/

namespace RobotSource.Listing.Grammar

open Parsing Parsing.Parser Text List

variable {α : Type} {text : List Char} {b c r : Cursor} {ns : List Node}
variable {i : Instruction}

/-! ## Leaves -/

instance : Verbatim systemVariable := by
  have := inRow_takeWhile (q := fun x => !(x == ']' || x == '\n')) (by decide)
  have : Reads (Over InRow) systemStep := by unfold systemStep; infer_instance
  unfold systemVariable; infer_instance

/-- A string is read over its two quotes and its content between them. -/
theorem passes_quoted {x : Char} {s : String} (hx : InRow x) (h : quoted x c = .done s r) :
    Passes (x :: s.toList ++ [x]) c r ∧ ∀ y ∈ x :: s.toList ++ [x], InRow y := by
  obtain ⟨_, c₁, hopen, content, c₂, hcontent, _, c₃, hclose, h⟩ := bind₃_eq_done.1 h
  cases h
  cases hcontent
  rw [String.toList_ofList]
  refine ⟨(passes_char hopen).trans (.trans (.takeWhile _) (passes_char hclose)), ?_⟩
  intro y hy
  simp only [cons_append, mem_cons, mem_append, not_mem_nil, or_false] at hy
  rcases hy with rfl | hy | rfl
  · exact hx
  · have hstop := all_eq_true.1 all_takeWhile y hy
    rintro rfl
    simp at hstop
  · exact hx

/-! ## Operands -/

/-- What the parser builds, given the span of what it has read, is exact and has that span. -/
def Builds (text : List Char) (p : Parser (Span → Expr)) : Prop :=
  ∀ c build r, c.Of text → p c = .done build r → Over InRow c r ∧
    (build ⟨c.position, r.position⟩).span = ⟨c.position, r.position⟩ ∧
    (build ⟨c.position, r.position⟩).node.Exact text c.position.line

theorem Builds.orElse {p q : Parser (Span → Expr)} (h : Builds text p) (h' : Builds text q) :
    Builds text (p <|> q) := by
  intro c build r hc hdone
  rcases orElse_eq_done hdone with hp | hq
  · exact h c build r hc hp
  · exact h' c build r hc hq

/-- A leaf whose text is shown as it is. -/
theorem Builds.verbatim (leaf : Span → String → Expr) (p : Parser String) [hp : Verbatim p]
    (hnode : ∀ span s, (leaf span s).node = .mk span (.exactly s) []) :
    Builds text (do let s ← p; return fun span => leaf span s) := by
  intro c build r hc hdone
  obtain ⟨s, c₁, hs, hpure⟩ := bind_eq_done.1 hdone
  cases hpure
  have hover := inRow_of_done hs
  have hplaced : Placed text c.position [] r.position := (Placed.nil _).mono hover.row hover.le
  refine ⟨hover, ?_, ?_⟩
  · rw [← Expr.span_node, hnode]
    rfl
  · rw [hnode]
    exact hplaced.node (hp.fits hc hs)

theorem builds_string :
    Builds text (do let content ← stringLiteral; return fun span => .string span content) := by
  intro c build r hc hdone
  obtain ⟨s, c₁, hs, hpure⟩ := bind_eq_done.1 hdone
  cases hpure
  obtain ⟨x, hx, hpasses, hrow⟩ : ∃ x, (x = '\'' ∨ x = '"') ∧ Passes (x :: s.toList ++ [x]) c r ∧
      ∀ y ∈ x :: s.toList ++ [x], InRow y := by
    rcases orElse_eq_done hs with hs | hs
    · exact ⟨_, .inl rfl, passes_quoted (by decide) hs⟩
    · exact ⟨_, .inr rfl, passes_quoted (by decide) hs⟩
  have hover : Over InRow c r := ⟨_, hpasses, hrow⟩
  have hplaced : Placed text c.position [] r.position := (Placed.nil _).mono hover.row hover.le
  have hfits : (Shown.quoted s).Fits text ⟨c.position, r.position⟩ :=
    ⟨x, hx, rowSlice?_of hc hpasses fun hmem => hrow _ hmem rfl⟩
  exact ⟨hover, rfl, hplaced.node hfits⟩

section
variable {e : Parser Expr}

theorem builds_parenthesized (he : Adds text e fun a => [a.node]) :
    Builds text (parenthesized e) := by
  intro c build r hc hdone
  obtain ⟨_, c₁, hopen, inner, c₂, hinner, _, c₃, hclose, hdone⟩ := bind₃_eq_done.1 hdone
  cases hdone
  have h₁ : At text c [] c₁ := Reads.keepsAt c _ c₁ (.refl hc) hopen
  have h₂ : At text c [inner.node] c₂ := he c [] c₁ inner c₂ h₁ hinner
  have h₃ : At text c [inner.node] r := h₂.extend (inRow_of_done hclose)
  exact ⟨h₃.inRow, rfl, h₃.placed.node Shown.fits_any⟩

theorem builds_register (he : Adds text e fun a => [a.node]) : Builds text (register e) := by
  intro c build r hc hdone
  obtain ⟨kind, c₁, hkind, _, c₂, hopen, _, c₃, hspaces, indices, c₄, hindices, hdone⟩ :=
    bind₄_eq_done.1 hdone
  obtain ⟨comment, c₅, hcomment, _, c₆, hclose, hdone⟩ := bind₂_eq_done.1 hdone
  cases hdone
  obtain ⟨hname, hnameRow⟩ := Verbatim.of_done hkind
  -- Between the brackets stand the indices and the comment, all in the row.
  have hhead : Passes (kind.toList ++ ['[']) c c₂ := hname.trans (passes_char hopen)
  have hover₂ : Over InRow c c₂ := (inRow_of_done hkind).trans (inRow_of_done hopen)
  have h₃ : At text c₂ [] c₃ := Reads.keepsAt c₂ _ c₃ (.refl (hc.over hover₂)) hspaces
  have h₄ : At text c₂ (Expr.nodes indices) c₄ := by
    rw [Expr.nodes_eq_flatMap]
    exact he.sepBy Reads.leaves c₂ [] c₃ indices c₄ h₃ hindices
  have h₅ : At text c₂ (Expr.nodes indices) c₅ := h₄.extend (inRow_of_done hcomment)
  obtain ⟨inner, hinner, hinnerRow⟩ := h₅.inRow
  have hpasses : Passes (kind.toList ++ '[' :: inner ++ [']']) c r := by
    simpa using hhead.trans (hinner.trans (passes_char hclose))
  have hrow : ∀ y ∈ kind.toList ++ '[' :: inner ++ [']'], InRow y := by
    intro y hy
    simp only [append_assoc, cons_append, mem_append, mem_cons,
      not_mem_nil, or_false] at hy
    rcases hy with hy | rfl | hy | rfl
    · exact hnameRow y hy
    · decide
    · exact hinnerRow y hy
    · decide
  have hplaced : Placed text c.position (Expr.nodes indices) r.position := by
    have hbefore : At text c [] c₂ := (At.refl hc).extend hover₂
    exact ((hbefore.append h₅).extend (inRow_of_done hclose)).placed
  have hfits : (Shown.bracketed kind).Fits text ⟨c.position, r.position⟩ :=
    ⟨inner, rowSlice?_of hc hpasses fun hmem => hrow _ hmem rfl⟩
  exact ⟨⟨_, hpasses, hrow⟩, rfl, hplaced.node hfits⟩

theorem adds_operand (he : Adds text e fun a => [a.node]) :
    Adds text (operand e) fun a => [a.node] := by
  refine .of_alone fun c a r hc hdone => ?_
  obtain ⟨⟨build, span⟩, c₂, hlexeme, hpure⟩ := bind_eq_done.1 hdone
  cases hpure
  obtain ⟨x, c₁, hspanned, _, c₃, hspaces, hpure⟩ := bind₂_eq_done.1 hlexeme
  cases hpure
  obtain ⟨build, hbuild, heq⟩ := spanned_eq_done.1 hspanned
  cases heq
  have hbuilds : Builds text _ :=
    (builds_parenthesized he).orElse <|
    (Builds.verbatim .number number fun _ _ => rfl).orElse <|
    builds_string.orElse <|
    (Builds.verbatim .system systemVariable fun _ _ => rfl).orElse <|
    (builds_register he).orElse (Builds.verbatim .identifier identifier fun _ _ => rfl)
  obtain ⟨hover, hspan, hexact⟩ := hbuilds c build c₁ hc hbuild
  have hplaced : Placed text c.position [(build ⟨c.position, c₁.position⟩).node] c₁.position := by
    refine .singleton hexact hover.row ?_ ?_ <;> rw [Expr.span_node, hspan]
  exact At.extend ⟨hc, hover, hplaced⟩ (inRow_of_done hspaces)

/-! ## Operators -/

/-- Signs in place before an operand make up nodes around it, from the last sign to the first. -/
theorem at_foldr_signs {signs : List (Position × UnaryOp)} {inner : Expr}
    (h : At text b (ns ++ (signs.flatMap fun sign => [Placed.mark sign.1]) ++ [inner.node]) c) :
    At text b (ns ++ [(signs.foldr (fun (start, op) e => .unary ⟨start, e.span.stop⟩ op e)
      inner).node]) c := by
  induction signs generalizing ns with
  | nil => simpa using h
  | cons sign signs ih =>
    have hrest : At text b ((ns ++ [Placed.mark sign.1]) ++ [(signs.foldr
        (fun (start, op) e => .unary ⟨start, e.span.stop⟩ op e) inner).node]) c :=
      ih (by simpa using h)
    refine hrest.imp fun hplaced => ?_
    rw [append_assoc, singleton_append] at hplaced
    rw [foldr_cons, Expr.node, ← Expr.span_node]
    exact hplaced.prepend

theorem adds_signed (he : Adds text e fun a => [a.node]) : Adds text (signed e) fun a => [a.node] := by
  have hsign : Adds text (do let start ← position; let op ← unaryOp; return (start, op))
      fun sign => [Placed.mark sign.1] := by
    refine .of_alone fun c sign r hc hdone => ?_
    obtain ⟨_, _, hstart, hdone⟩ := bind_eq_done.1 hdone
    cases hstart
    obtain ⟨op, c₂, hop, hdone⟩ := bind_eq_done.1 hdone
    cases hdone
    have hover := inRow_of_done hop
    have hmark : (Placed.mark c.position).Exact text c.position.line :=
      (Placed.nil _).node Shown.fits_any
    exact ⟨hc, hover, .singleton hmark hover.row (le_refl _) hover.le⟩
  intro b ns
  refine (hsign.many b ns).bind fun signs => (adds_operand he b _).bind fun inner => ?_
  exact .pure fun c hc => at_foldr_signs hc

/-- Two operands in place are joined to one. -/
theorem at_join {left right : Expr} {op : BinaryOp}
    (h : At text b (ns ++ [left.node] ++ [right.node]) c) :
    At text b (ns ++ [(left.join op right).node]) c := by
  refine h.imp fun hplaced => ?_
  rw [append_assoc, singleton_append] at hplaced
  rw [Expr.join, Expr.node, Span.cover, ← Expr.span_node, ← Expr.span_node]
  exact hplaced.join

end

/-! ## Instructions -/

/-- A lexeme is a node, and the white space behind it is not part of it. -/
theorem adds_lexeme {p : Parser α} {ν : α → List Node} (h : Adds text p ν) :
    Adds text (lexeme p) fun x => [.mk x.2 .any (ν x.1)] :=
  fun b ns => (h.spanned b ns).bind fun _ => Reads.keepsAt.bind fun _ => .pure fun _ hc => hc

/-- The nodes of the parts of an instruction. -/
def outline : Harvest Node where
  expr e := [e.node]
  name s span := [.mk span (.exactly s) []]
  label r := [r.node]
  definition d := [d.node]
  action a := [a.node]
  option o := [o.node]

theorem outline_call (c : Call) : outline.call c = c.nodes := by
  simp [Harvest.call, outline, Call.nodes, Expr.nodes_eq_flatMap]

theorem outline_actionKind (kind : ActionKind) : outline.actionKind kind = kind.nodes := by
  cases kind with
  | call callee => exact outline_call callee
  | run callee => exact outline_call callee
  | jump _ => rfl
  | assign _ => rfl

theorem outline_optionKind (kind : MotionOptionKind) : outline.optionKind kind = kind.nodes := by
  cases kind <;> rfl

theorem outline_motion (m : Motion) : outline.motion m = m.nodes := by
  obtain ⟨type, destination, speed, termination, options⟩ := m
  cases speed <;> cases termination <;> rfl

/-- What is gathered of an instruction are its nodes. -/
theorem outline_instructionKind : outline.instructionKind = InstructionKind.nodes := by
  funext kind
  cases kind with
  | call callee => exact outline_call callee
  | run callee => exact outline_call callee
  | motion m => exact outline_motion m
  | _ => rfl

theorem adds_name : Adds text (spanned identifier) fun x => outline.name x.1 x.2 := by
  refine .of_alone fun c x r hc hdone => ?_
  obtain ⟨name, hread, rfl⟩ := spanned_eq_done.1 hdone
  have hover := inRow_of_done hread
  have hempty : At text c [] r := (At.refl hc).extend hover
  have hnode := hempty.placed.node (Verbatim.fits hc hread)
  exact ⟨hc, hover, .singleton hnode hover.row (le_refl _) (le_refl _)⟩

theorem addsOperands : GathersOperands (At text) outline where
  row := Reads.leaves
  forget h _ _ := Adds.forget h
  operand := adds_operand
  signed := adds_signed
  join := at_join
  name := adds_name

theorem adds_labelReference : Adds text labelReference outline.label := by
  intro b ns
  refine (adds_lexeme addsOperands.labelTarget b ns).bind fun ⟨target, _⟩ => .pure fun _ hc => ?_
  cases target <;> exact hc

theorem adds_labelDefinition : Adds text labelDefinition outline.definition := by
  intro b ns
  refine (adds_lexeme (ν := fun _ => []) (.of_reads fun _ => rfl) b ns).bind fun _ =>
    .pure fun _ hc => hc

theorem addsParts : GathersParts (At text) outline where
  toGathersOperands := addsOperands
  label := adds_labelReference
  definition := adds_labelDefinition
  action := addsOperands.action adds_labelReference fun p h => by
    rw [funext outline_actionKind] at h
    exact Adds.spanned h
  option := addsOperands.motionOption adds_labelReference fun p h => by
    rw [funext outline_optionKind] at h
    exact Adds.spanned h

theorem adds_instructionKind : Adds text instructionKind InstructionKind.nodes :=
  outline_instructionKind ▸ addsParts.instructionKind

/-- A body line is read as its instruction, with the number in front of it and the semicolon behind
it in the same row. -/
theorem exists_kind_of_instruction (h : instruction c = .done i r) :
    ∃ c₁ c₂ c₃ feed, Over InRow c c₁ ∧ instructionKind c₁ = .done i.kind c₂ ∧
      i.span = ⟨c₁.position, c₂.position⟩ ∧ Over InRow c₂ c₃ ∧ lineEnd c₃ = .done feed r := by
  obtain ⟨_, c₁, h₁, _, c₂, h₂, _, c₃, h₃, _, c₄, h₄, h⟩ := bind₄_eq_done.1 h
  obtain ⟨x, c₅, hspanned, _, c₆, h₆, _, c₇, h₇, _, c₈, h₈, h⟩ := bind₄_eq_done.1 h
  obtain ⟨_, c₉, hend, h⟩ := bind_eq_done.1 h
  cases h
  obtain ⟨kind, hkind, rfl⟩ := spanned_eq_done.1 hspanned
  have hbehind : Over InRow c₅ c₈ :=
    (inRow_of_done h₆).trans <| (inRow_of_done h₇).trans <| inRow_of_done h₈
  exact ⟨c₄, c₅, c₈, _, inRow_number h₁ h₂ h₃ h₄, hkind, rfl, hbehind, hend⟩

/-- A body line holds an exact instruction, and behind it the next row begins unless the text is
over. -/
theorem instruction_eq_done (hc : c.Of text) (h : instruction c = .done i r) :
    Along c r ∧ (c.position ≤ i.span.start ∧ i.span.stop ≤ r.position) ∧
      i.node.Exact text i.row ∧ (r.rest ≠ [] → i.row < r.position.line) := by
  obtain ⟨c₁, c₂, c₃, _, hbefore, hkind, hspan, hbehind, hend⟩ := exists_kind_of_instruction h
  obtain ⟨hlast, hrow⟩ := lineEnd_eq_done hend
  have hinner : At text c₁ i.kind.nodes c₂ := adds_instructionKind.alone (hc.over hbefore) hkind
  rw [Instruction.row, Instruction.node, hspan]
  refine ⟨?_, ⟨hbefore.le, hbehind.le.trans hlast.le⟩, hinner.placed.node Shown.fits_any, ?_⟩
  · exact (hbefore.trans (hinner.inRow.trans hbehind)).along.trans hlast
  · intro hrest
    have hnext := hrow hrest
    rw [hbehind.row, hinner.inRow.row] at hnext
    exact hnext ▸ Nat.lt_succ_self _

/-! ## Programs -/

/-- The instructions are those of body lines between two cursors. -/
structure Body (text : List Char) (c : Cursor) (is : List Instruction) (r : Cursor) : Prop where
  along : Along c r
  inside : ∀ i ∈ is, c.position ≤ i.span.start ∧ i.span.stop ≤ r.position
  rows : is.Pairwise fun i j => i.row < j.row
  exact : ∀ i ∈ is, i.node.Exact text i.row
  /-- where the text is over there are none -/
  rest : is ≠ [] → c.rest ≠ []

theorem Body.nil (h : Along c r) : Body text c [] r :=
  ⟨h, by simp, .nil, by simp, by simp⟩

/-- One more body line in front of the others. -/
theorem Body.cons {is : List Instruction} {c₁ c₂ : Cursor} (hc : c₁.Of text) (hempty : Along c c₁)
    (hend : c₁.rest ≠ []) (hi : instruction c₁ = .done i c₂)
    (h : Body text c₂ is r) : Body text c (i :: is) r := by
  obtain ⟨hline, ⟨hstart, hstop⟩, hexact, hrow⟩ := instruction_eq_done hc hi
  have hfront : c.position ≤ c₂.position := hempty.le.trans hline.le
  refine ⟨hempty.trans (hline.trans h.along), ?_, ?_, ?_, ?_⟩
  · refine forall_mem_cons.2 ⟨⟨hempty.le.trans hstart, hstop.trans h.along.le⟩, fun j hj => ?_⟩
    exact ⟨hfront.trans (h.inside j hj).1, (h.inside j hj).2⟩
  · refine pairwise_cons.2 ⟨fun j hj => ?_, h.rows⟩
    have hnext : i.row < c₂.position.line := hrow (h.rest (ne_nil_of_mem hj))
    have hj := Position.le_iff.1 (h.inside j hj).1
    simp only [Instruction.row] at hnext ⊢
    omega
  · exact forall_mem_cons.2 ⟨hexact, h.exact⟩
  · intro _ hnil
    obtain ⟨u, hu, -⟩ := hempty
    rw [hu.rest, append_eq_nil_iff] at hnil
    exact hend hnil.2

theorem body_bodyLines {is : List Instruction} (hc : c.Of text) (h : bodyLines c = .done is r) :
    Body text c is r := by
  refine Yields.nested (A := fun b c => c = b ∧ b.Of text) (B := fun b is r => Body text b is r)
    (fun self hself b => ?_) c c is r ⟨rfl, hc⟩ h
  rintro _ is r ⟨rfl, hc⟩ hdone
  obtain ⟨_, c₁, hempty, _, _, hcursor, hdone⟩ := bind₂_eq_done.1 hdone
  cases hcursor
  have halong := along_of_done hempty
  split at hdone
  · cases hdone
    exact .nil halong
  · rename_i hmore
    obtain ⟨i, c₂, hi, is, c₃, his, hdone⟩ := bind₂_eq_done.1 hdone
    cases hdone
    have hc₁ := hc.over halong
    have hend : c₁.rest ≠ [] := by
      intro hnil
      simp [Cursor.atEnd, hnil] at hmore
    have hc₂ := hc₁.over (instruction_eq_done hc₁ hi).1
    exact .cons hc₁ halong hend hi (hself c₂ c₂ is r ⟨rfl, hc₂⟩ his)

instance {n : Nat} : Orderly n false headPart headPart := by
  unfold headPart titleLine; infer_instance

/-- A listing is what its body lines hold, between a head and an end. -/
theorem exists_body_of_program {p : Program} (h : program c = .done p r) :
    ∃ first last stop, Along c first ∧ bodyLines first = .done p.instructions last ∧
      Along last stop ∧ p.span = ⟨c.position, stop.position⟩ := by
  obtain ⟨title, comment, is, stop, c₁, c₂, c₃, hhead, hbody, hpositions, hending, rfl⟩ :=
    program_eq_done_iff.1 h
  obtain ⟨_, d₁, hspaces, _, d₂, hkeyword, _, _, hstop, h⟩ := bind₃_eq_done.1 hending
  cases hstop
  obtain ⟨_, d₄, -, h⟩ := bind_eq_done.1 h
  cases h
  refine ⟨c₁, c₂, d₂, along_of_done hhead, hbody, ?_, rfl⟩
  exact (along_of_done hpositions).trans <| (along_of_done hspaces).trans (along_of_done hkeyword)

theorem program_eq_done {p : Program} (hc : c.Of text) (h : program c = .done p r) :
    p.SpansExact text := by
  obtain ⟨first, last, stop, hhead, hbody, htail, hspan⟩ := exists_body_of_program h
  have hbody := body_bodyLines (hc.over hhead) hbody
  refine ⟨?_, fun i hi => ?_, hbody.rows, hbody.exact⟩
  · rw [hspan]
    exact hhead.le.trans (hbody.along.le.trans htail.le)
  · rw [hspan]
    exact ⟨hhead.le.trans (hbody.inside i hi).1, (hbody.inside i hi).2.trans htail.le⟩

end Grammar

/-- **Positions in a listing are exact.** Whatever text is read as a program, its instructions stand
in ascending rows, and each of them with all its nodes lies where the text says: within its row, the
children inside their parents, in order and apart, and every leaf over the characters that it
stores. -/
theorem Program.spansExact_of_parse {text : String} {p : Program}
    (h : Program.parse text = .ok p) : p.SpansExact text.toList := by
  obtain ⟨r, hdone⟩ := Parsing.Parser.run_eq_ok.1 h
  exact Grammar.program_eq_done ⟨[], .refl _⟩ hdone

/-- A condition over two lines, with blanks, signs and a call, and a text that closes without a line
break. -/
theorem Program.spansExact_of_parse_nested :
    let text := "/PROG A\n/MN\n 1: IF -(R[1:n]+ .5)<'a b' ,CALL  SUB (R[R[2]] , $X[1].$Y) ;\n\n" ++
      " 2:L P[1] 100mm/sec CNT50 Skip,LBL[3] ;\r\n/END"
    ∃ p, Program.parse text = .ok p ∧ p.instructions.map Instruction.row = [3, 5] ∧
      p.SpansExact text.toList := by
  intro text
  have hrows : ∃ p, Program.parse text = .ok p ∧ p.instructions.map Instruction.row = [3, 5] := by
    have hmap : (Program.parse text).map (fun p => p.instructions.map Instruction.row) =
        .ok [3, 5] := by decide +kernel
    cases hparse : Program.parse text with
    | ok p =>
      rw [hparse] at hmap
      exact ⟨p, rfl, Except.ok.inj hmap⟩
    | error e =>
      rw [hparse] at hmap
      cases hmap
  obtain ⟨p, hparse, hrows⟩ := hrows
  exact ⟨p, hparse, hrows, Program.spansExact_of_parse hparse⟩

end RobotSource.Listing
