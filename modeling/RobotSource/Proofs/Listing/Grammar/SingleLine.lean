import RobotSource.Proofs.Listing.Grammar.LineEnding
import RobotSource.Proofs.Listing.Grammar.Spans
/-!
# Body lines by themselves

A body line is read in a listing as it is read by itself, but for the rows of its places. The two
texts, the listing from the line on and the line alone, share what stands before the semicolon that
closes the line (`SameRow`); behind it, no token and no text of a comment looks
(`abreast_sameRow`). Hence the instructions of a listing are those of its body lines, one by one
(`Program.instructions_of_lines`).
-/

namespace RobotSource.Listing

open Text
open List hiding takeWhile

namespace Grammar

open Parsing Parsing.Parser

variable {x : InstructionKind × Span} {rows : Nat} {i : Instruction}

/-! ## In front of the semicolon -/

theorem delimits_closing : Delimits (· == ';') Closing where
  lower x hx := by rw [eq_of_beq hx]; decide
  word x hx := by rw [eq_of_beq hx]; decide
  name x hx := by rw [eq_of_beq hx]; decide
  begins x s h := by
    obtain rfl := Option.some.inj h.head?
    rfl

/-- Places that correspond still do behind any character, and the two views make the same of them;
the views do not differ otherwise. -/
structure Uniform (P : Position → Position → Prop) (v v' : View) : Prop where
  after : ∀ p q x, P p q → P (p.after x) (q.after x)
  position : ∀ p q, P p q → v.position p = v'.position q
  name : v.name = v'.name
  literal : v.literal = v'.literal

/-- Two texts of which the first stands so many rows further down. -/
theorem uniform_lowered (rows : Nat) :
    Uniform (fun p q => p = (View.lowered rows).position q) .same (.lowered rows) where
  after p q x hpq := by
    rw [hpq, Position.after, Position.after]
    split
    · simp only [View.lowered, Nat.add_right_comm]
    · rfl
  position _ _ h := h
  name := rfl
  literal := rfl

/-- Two texts of which the places do not matter. -/
theorem uniform_unplaced {v : View} (hplace : ∀ p q, v.position p = v.position q) :
    Uniform (fun _ _ => True) v v where
  after _ _ _ _ := trivial
  position p q _ := hplace p q
  name := rfl
  literal := rfl

/-- Both texts go on with the same stretch, then with the given ends, at places that correspond. -/
def SameRow (P : Position → Position → Prop) (s s' : List Char) (c d : Cursor) : Prop :=
  (∃ u, c.rest = u ++ s ∧ d.rest = u ++ s') ∧ P c.position d.position

section
variable {P : Position → Position → Prop} {v v' : View} {s s' : List Char} {c d : Cursor}

theorem Uniform.afterAll (hP : Uniform P v v') {p q : Position} (h : P p q) (u : List Char) :
    P (p.afterAll u) (q.afterAll u) := by
  induction u generalizing p q with
  | nil => exact h
  | cons x u ih =>
    rw [Position.afterAll_cons, Position.afterAll_cons]
    exact ih (hP.after p q x h)

/-- Within the common stretch, the places correspond. -/
theorem SameRow.moves {Q : List Char → Prop} (hP : Uniform P v v') (hs : Q s) (hs' : Q s')
    (h : SameRow P s s' c d) : Moves Q (SameRow P s s') c d := by
  obtain ⟨⟨u, hc, hd⟩, hplace⟩ := h
  refine ⟨u, ⟨⟨s, hc, hs⟩, ⟨s', hd, hs'⟩⟩, ?_⟩
  rintro _ _ ⟨k, hk, rfl, rfl⟩
  refine ⟨⟨u.drop k, ?_, ?_⟩, ?_⟩
  · rw [Cursor.rest_drop, hc, drop_append_of_le_length hk]
  · rw [Cursor.rest_drop, hd, drop_append_of_le_length hk]
  · simp only [Cursor.drop, hc, hd, take_append_of_le_length hk]
    exact hP.afterAll hplace (u.take k)

theorem abreast_sameRow (hP : Uniform P v v') (hs : Closing s) (hs' : Closing s') :
    Abreast isLineEnd LineRest (SameRow P s s') v v' where
  borders := borders_lineRest
  moves _ _ h := h.moves hP (.inr (hs.lineEnding (g := []) (by simp)))
    (.inr (hs'.lineEnding (g := []) (by simp)))
  matching _ _ _ hw h := matches_of_moves_lineEnding hw
    (h.moves hP (hs.lineEnding (g := []) (by simp)) (hs'.lineEnding (g := []) (by simp)))
  position c d h := hP.position c.position d.position h.2
  spaces := by
    refine (Keeps.of_local (fun _ _ h => h.moves hP hs hs') (.bind (.takeWhile delimits_closing ?_)
      fun _ => .pure ())).imp (fun _ _ h => h) fun _ _ _ => trivial
    intro x hx
    rw [eq_of_beq hx]
    rfl
  text := by
    refine .of_local (fun _ _ h => h.moves hP hs hs') (.bind (.takeWhile delimits_closing ?_)
      fun _ => .pure _)
    intro x hx
    rw [eq_of_beq hx]
    rfl
  name := hP.name
  literal := hP.literal

/-- The semicolon itself is seen on both sides or on neither. -/
theorem keeps_lookahead_semicolon (hs : Closing s) (hs' : Closing s') :
    Keeps (SameRow P s s') (SameRow P s s') (· = ·) (lookahead (char ';'))
      (lookahead (char ';')) := by
  intro c d hcd
  have hhead : c.rest.head? = d.rest.head? := by
    obtain ⟨⟨u, hc, hd⟩, -⟩ := hcd
    rw [hc, hd, head?_append, head?_append, hs.head?, hs'.head?]
  rw [lookahead, lookahead, char, char, hhead]
  by_cases hsemi : d.rest.head? = some ';'
  · simp only [if_pos hsemi]
    exact .done rfl hcd
  · simp only [if_neg hsemi]
    exact .failed

/-- What a body line holds before its semicolon, the place of the instruction included. -/
def code : Parser (InstructionKind × Span) := do
  spaces
  let _ ← digits
  let _ ← char ':'
  spaces
  let x ← spanned instructionKind
  spaces
  return x

theorem instruction_eq : instruction = (do
    let x ← code
    let _ ← char ';'
    spaces
    let _ ← lineEnd
    return ⟨x.1, x.2⟩) := by
  simp only [instruction, code, bind_assoc, pure_bind]

/-- **The code of a body line is the same whatever follows the line.** -/
theorem keeps_code_sameRow (hP : Uniform P v v') (hs : Closing s) (hs' : Closing s') :
    Keeps (SameRow P s s') (SameRow P s s')
      (fun x y => x.1.view v = y.1.view v' ∧ v.span x.2 = v'.span y.2) code code := by
  have hR := abreast_sameRow hP hs hs'
  have hblank : Keeps (SameRow P s s') (SameRow P s s')
      (fun a b : InstructionKind => a.view v = b.view v')
      (lookahead (char ';') *> pure .blank) (lookahead (char ';') *> pure .blank) :=
    (keeps_lookahead_semicolon hs hs').bind fun _ _ _ => .pure rfl
  have hkind : Keeps (SameRow P s s') (SameRow P s s')
      (fun a b => a.view v = b.view v') instructionKind instructionKind :=
    hblank.orElse (hR.wording.flowInstruction.orElse hR.wording.otherInstruction)
  have hnumber : Agrees (SameRow P s s') (SameRow P s s') digits
      fun _ _ => True := hR.token (.digits delimits_lineRest) fun _ => trivial
  have hcolon : Agrees (SameRow P s s') (SameRow P s s') (char ':')
      fun _ _ => True := hR.token (.char delimits_lineRest (by decide)) fun _ => trivial
  refine hR.spaces.bind fun _ _ _ => hnumber.bind fun _ _ _ =>
    hcolon.bind fun _ _ _ => hR.spaces.bind fun _ _ _ => ?_
  have hspanned := hkind.spanned (P := fun p q => v.position p = v'.position q) hR.position
    hR.position
  refine hspanned.bind fun x y hxy => hR.spaces.bind fun _ _ _ => .pure ?_
  obtain ⟨hview, hstart, hstop⟩ := hxy
  exact ⟨hview, by rw [View.span, View.span, hstart, hstop]⟩

end

/-! ## One body line -/

section
variable {text : List Char} {c d r : Cursor}

theorem inRow_code (hc : c.Of text) (h : code c = .done x r) :
    Over InRow c r := by
  obtain ⟨_, c₁, h₁, _, c₂, h₂, _, c₃, h₃, _, c₄, h₄, h⟩ := bind₄_eq_done.1 h
  obtain ⟨x, c₅, hspanned, _, c₆, h₆, h⟩ := bind₂_eq_done.1 h
  cases h
  obtain ⟨kind, hkind, rfl⟩ := spanned_eq_done.1 hspanned
  have hbefore : Over InRow c c₄ := inRow_number h₁ h₂ h₃ h₄
  have hinner : At text c₄ kind.nodes c₅ := adds_instructionKind.alone (hc.over hbefore) hkind
  exact hbefore.trans (hinner.inRow.trans (inRow_of_done h₆))

/-- The text ends here, or it goes on behind a break. -/
def Ended (e s : List Char) : Prop := (∃ b, IsLineBreak b ∧ e = b ++ s) ∨ e = [] ∧ s = []

theorem Ended.reaches {e s : List Char} (h : Ended e s) (hc : c.rest = e) :
    ∃ b, Reaches lineEnd c b s := by
  rcases h with ⟨b, hb, rfl⟩ | ⟨rfl, rfl⟩
  · exact ⟨b, reaches_lineEnd hb hc⟩
  · exact ⟨[], reaches_lineEnd_nil hc⟩

theorem Ended.head? {e s : List Char} (h : Ended e s) : e.head?.any isSpaceOrTab = false := by
  rcases h with ⟨b, rfl | rfl, rfl⟩ | ⟨rfl, -⟩ <;> rfl

theorem Ended.closing {g e s : List Char} (h : Ended e s) (hg : ∀ x ∈ g, isSpaceOrTab x) :
    Closing (';' :: (g ++ e)) := by
  have hblank := isBlank_of_isSpaceOrTab_of_mem hg
  rcases h with ⟨b, rfl | rfl, rfl⟩ | ⟨rfl, rfl⟩
  · exact ⟨g, '\n' :: s, rfl, hblank, by simp⟩
  · refine ⟨g ++ ['\r'], '\n' :: s, by simp, ?_, by simp⟩
    intro x hx
    rcases mem_append.1 hx with hx | hx
    · exact hblank x hx
    · rw [mem_singleton.1 hx]
      decide
  · exact ⟨g, [], rfl, hblank, by simp⟩

/-- **The parts of a body line**: its code, the semicolon, and spaces and tabs up to its end. -/
theorem instruction_eq_done_iff {s : List Char} :
    Reaches instruction c i s ↔ ∃ x g e, Reaches code c x (';' :: (g ++ e)) ∧
      (∀ y ∈ g, isSpaceOrTab y) ∧ Ended e s ∧ i = ⟨x.1, x.2⟩ := by
  rw [instruction_eq]
  constructor
  · rintro ⟨r, h, rfl⟩
    obtain ⟨x, c₁, hcode, _, c₂, hsemi, _, c₃, hspaces, b, c₄, hend, h⟩ := bind₄_eq_done.1 h
    cases h
    obtain ⟨g, hc₂, hg, -⟩ := spaces_eq_done hspaces
    refine ⟨x, g, c₃.rest, ⟨c₁, hcode, ?_⟩, hg, (rest_of_lineEnd hend).imp_left fun h => ⟨b, h⟩, rfl⟩
    rw [(passes_char hsemi).rest, hc₂]
    rfl
  · rintro ⟨x, g, e, hcode, hg, hended, rfl⟩
    refine hcode.bind fun c₁ hc₁ => (reaches_char hc₁).bind fun c₂ hc₂ => ?_
    refine (reaches_spaces hc₂ hg hended.head?).bind fun c₃ hc₃ => ?_
    obtain ⟨b, hb⟩ := hended.reaches hc₃
    exact hb.bind fun c₄ hc₄ => .pure _ hc₄

/-- Where a body line is read, it is a line of its own. -/
theorem exists_closedLine {g e : List Char} (hc : c.Of text)
    (hg : ∀ y ∈ g, isSpaceOrTab y) (h : Reaches code c x (';' :: (g ++ e))) :
    ∃ u, c.rest = u ++ ';' :: (g ++ e) ∧ ClosedLine (u ++ ';' :: g) := by
  obtain ⟨c₁, hcode, hc₁⟩ := h
  obtain ⟨u, hu, hinRow⟩ := inRow_code hc hcode
  refine ⟨u, by rw [hu.rest, hc₁], ?_, ?_⟩
  · simp only [mem_append, mem_cons, not_or]
    refine ⟨fun hmem => hinRow _ hmem rfl, by decide, fun hmem => ?_⟩
    exact absurd (hg _ hmem) (by decide)
  · rw [getLast?_append_of_ne_nil _ (cons_ne_nil _ _)]
    intro hlast
    rcases mem_cons.1 (mem_of_getLast? hlast) with hx | hx
    · exact absurd hx (by decide)
    · exact absurd (hg _ hx) (by decide)

/-- **A body line is read alike wherever it stands.** -/
theorem reaches_instruction_sameRow {P : Position → Position → Prop} {v v' : View}
    {u g e f t : List Char} (hP : Uniform P v v')
    (hplace : P c.position d.position) (hg : ∀ y ∈ g, isSpaceOrTab y)
    (he : Closing (';' :: (g ++ e))) (he' : Ended f t) (hc : c.rest = u ++ ';' :: (g ++ e))
    (hd : d.rest = u ++ ';' :: (g ++ f)) (h : Reaches code c x (';' :: (g ++ e))) :
    ∃ j, Reaches instruction d j t ∧ (Instruction.mk x.1 x.2).view v = j.view v' := by
  obtain ⟨c₁, hcode, hc₁⟩ := h
  obtain ⟨y, d₁, hdone, ⟨hkind, hspan⟩, ⟨u₁, hu₁, hd₁⟩, -⟩ :=
    (keeps_code_sameRow hP he (he'.closing hg)).exists_right ⟨⟨u, hc, hd⟩, hplace⟩ hcode
  obtain rfl : u₁ = [] := by simpa [hc₁] using hu₁
  refine ⟨⟨y.1, y.2⟩, ?_, by rw [Instruction.view, Instruction.view, hkind, hspan]⟩
  exact instruction_eq_done_iff.2 ⟨y, g, f, ⟨d₁, hdone, hd₁⟩, hg, he', rfl⟩

/-- The instruction that the line holds by itself, so many rows further down. -/
def HeldBy (line : List Char × Nat) (i : Instruction) : Prop :=
  ∃ j, Instruction.parse (String.ofList line.1) = .ok j ∧ i = j.view (.lowered line.2)

/-- **A body line is read as it is read by itself.** -/
theorem instruction_line (hc : c.Of text)
    (hrow : c.position = ⟨rows + 1, 1⟩) (h : instruction c = .done i r) (hr : r.rest ≠ []) :
    ∃ l, Opens r.rest [l] c.rest ∧ l.all isSpaceOrTab = false ∧ HeldBy (l, rows) i := by
  obtain ⟨x, g, e, hcode, hg, hended, rfl⟩ := instruction_eq_done_iff.1 ⟨r, h, rfl⟩
  obtain ⟨u, hu, hclosed⟩ := exists_closedLine hc hg hcode
  obtain ⟨b, hb, rfl⟩ := hended.resolve_right fun hnil => hr hnil.2
  have hplace : c.position = (View.lowered rows).position (Cursor.ofText
      (String.ofList (u ++ ';' :: g))).position := by
    rw [hrow, Nat.add_comm]
    rfl
  obtain ⟨j, hj, hview⟩ := reaches_instruction_sameRow (d := .ofText (String.ofList (u ++ ';' :: g)))
    (f := []) (t := []) (uniform_lowered rows) hplace hg (hended.closing hg) (.inr ⟨rfl, rfl⟩) hu
    (by rw [append_nil]; exact String.toList_ofList) hcode
  refine ⟨u ++ ';' :: g, ?_, by simp [isSpaceOrTab], j, ?_, ?_⟩
  · rw [hu, ← cons_append, ← append_assoc]
    exact .cons hclosed hb .nil
  · obtain ⟨d₁, hdone, -⟩ := hj
    exact Parser.run_eq_ok.2 ⟨d₁, hdone⟩
  · rwa [Instruction.view_same] at hview

end

/-! ## The body -/

section
variable {text : List Char} {c r : Cursor} {lines : List (List Char)} {row : Nat}

/-- Lines lead down by as many rows. -/
theorem afterAll_opens {s t : List Char} (h : Opens s lines t) (row : Nat) :
    ∃ u, t = u ++ s ∧ (⟨row, 1⟩ : Position).afterAll u = ⟨row + lines.length, 1⟩ := by
  induction h generalizing row with
  | nil => exact ⟨[], rfl, rfl⟩
  | @cons l b t lines hl hb h ih =>
    obtain ⟨u, rfl, hu⟩ := ih (row + 1)
    have hnext : (⟨row, 1⟩ : Position).afterAll (l ++ b) = ⟨row + 1, 1⟩ := by
      rw [Position.afterAll_append, Position.afterAll_of_notMem hl.feedFree]
      rcases hb with rfl | rfl <;> rfl
    refine ⟨l ++ b ++ u, by simp only [append_assoc], ?_⟩
    rw [Position.afterAll_append, hnext, hu, length_cons, Nat.add_assoc, Nat.add_comm 1]

theorem position_of_opens (h : Opens r.rest lines c.rest) (halong : Along c r)
    (hc : c.position = ⟨row, 1⟩) : r.position = ⟨row + lines.length, 1⟩ := by
  obtain ⟨u, hu, hplace⟩ := afterAll_opens h row
  obtain ⟨w, hw, -⟩ := halong
  have huw : u = w := append_cancel_right (hu.symm.trans hw.rest)
  rw [hw.position, hc, ← huw, hplace]

/-- The lines of a body, from a given row on, and the instructions that they hold. -/
structure BodyOf (rows : Nat) (lines : List (List Char)) (is : List Instruction) : Prop where
  unmarked : ∀ l ∈ lines, atMarker "/POS" l = false ∧ atMarker "/END" l = false
  held : List.Forall₂ HeldBy
    ((lines.zipIdx rows).filter fun line => !line.1.all isSpaceOrTab) is

theorem BodyOf.empty (h : ∀ l ∈ lines, ∀ x ∈ l, isSpaceOrTab x) :
    BodyOf rows lines [] where
  unmarked l hl := by
    have hempty : l.dropWhile isSpaceOrTab = [] := dropWhile_eq_nil_iff.2 (h l hl)
    simp [atMarker, hempty, sameCharsIgnoringCase]
  held := by
    rw [filter_eq_nil_iff.2]
    · exact .nil
    · intro line hline
      have hblank := all_eq_true.2 (h line.1 (fst_mem_of_mem_zipIdx hline))
      simp [hblank]

theorem BodyOf.append {lines' : List (List Char)} {is is' : List Instruction}
    (h : BodyOf rows lines is) (h' : BodyOf (rows + lines.length) lines' is') :
    BodyOf rows (lines ++ lines') (is ++ is') where
  unmarked l hl := (mem_append.1 hl).elim (h.unmarked l) (h'.unmarked l)
  held := by
    rw [zipIdx_append, filter_append]
    exact rel_append h.held h'.held

theorem BodyOf.single {l : List Char}
    (hpos : atMarker "/POS" l = false) (hend : atMarker "/END" l = false)
    (hl : l.all isSpaceOrTab = false) (hi : HeldBy (l, rows) i) : BodyOf rows [l] [i] where
  unmarked l' hl' := by
    rw [mem_singleton.1 hl']
    exact ⟨hpos, hend⟩
  held := by
    rw [zipIdx_singleton, filter_cons_of_pos (by simp [hl])]
    exact .cons hi .nil

theorem ne_nil_of_along (h : Along c r) (hr : r.rest ≠ []) : c.rest ≠ [] := by
  obtain ⟨u, hu, -⟩ := h
  simp [hu.rest, hr]

/-- **The body of a listing is read line by line.** -/
theorem bodyLines_lines {is : List Instruction} (hc : c.Of text)
    (hrow : c.position = ⟨rows + 1, 1⟩) (h : bodyLines c = .done is r) (hr : r.rest ≠ []) :
    ∃ lines, Opens r.rest lines c.rest ∧ BodyOf rows lines is ∧
      (atMarker "/POS" r.rest ∨ atMarker "/END" r.rest) := by
  -- where a line ends with the text no further row begins
  refine (Yields.nested
    (A := fun (x : Cursor × Nat) c =>
      c = x.1 ∧ c.Of text ∧ (c.rest ≠ [] → c.position = ⟨x.2 + 1, 1⟩))
    (B := fun x is r => Along x.1 r ∧ (r.rest ≠ [] → ∃ lines, Opens r.rest lines x.1.rest ∧
      BodyOf x.2 lines is ∧ (atMarker "/POS" r.rest = true ∨ atMarker "/END" r.rest = true)))
    (fun self hself => ?_) (c, rows) c is r ⟨rfl, hc, fun _ => hrow⟩ h).2 hr
  rintro ⟨_, rows⟩ c is r ⟨rfl, hc, hrow⟩ hdone
  obtain ⟨_, c₁, hempty, _, _, hcursor, hdone⟩ := bind₂_eq_done.1 hdone
  cases hcursor
  obtain ⟨blank, hblank, hspaces⟩ := emptyLines_lines hempty
  have halong := along_of_done hempty
  split at hdone
  · rename_i hstop
    cases hdone
    refine ⟨halong, fun hr => ⟨blank, hblank, .empty hspaces, ?_⟩⟩
    simpa [Cursor.atEnd, hr] using hstop
  · rename_i hmore
    simp only [Bool.or_eq_true, not_or, Bool.not_eq_true] at hmore
    obtain ⟨⟨hend, hpos⟩, hlast⟩ := hmore
    obtain ⟨i, c₂, hi, is, c₃, his, hdone⟩ := bind₂_eq_done.1 hdone
    cases hdone
    have hc₁ := hc.over halong
    have hne₁ : c₁.rest ≠ [] := by simpa [Cursor.atEnd] using hend
    have hrow₁ : c₁.position = ⟨rows + blank.length + 1, 1⟩ := by
      rw [position_of_opens hblank halong (hrow (ne_nil_of_along halong hne₁)), Nat.add_right_comm]
    have halong₂ := (instruction_eq_done hc₁ hi).1
    have hrow₂ (hne₂ : c₂.rest ≠ []) : c₂.position = ⟨rows + blank.length + 1 + 1, 1⟩ := by
      obtain ⟨l, hl, -⟩ := instruction_line hc₁ hrow₁ hi hne₂
      exact position_of_opens hl halong₂ hrow₁
    obtain ⟨halong₃, hlines⟩ :=
      hself (c₂, rows + blank.length + 1) c₂ is r ⟨rfl, hc₁.over halong₂, hrow₂⟩ his
    refine ⟨halong.trans (halong₂.trans halong₃), fun hr => ?_⟩
    obtain ⟨l, hl, hcode, hheld⟩ := instruction_line hc₁ hrow₁ hi (ne_nil_of_along halong₃ hr)
    obtain ⟨lines, hopens, hbody, hmarker⟩ := hlines hr
    have hunmarked {marker : String} (hbreak : ∀ x ∈ marker.toList, isBreak x = false)
        (hat : atMarker marker c₁.rest = false) : atMarker marker l = false := by
      generalize c₁.rest = t at hl hat
      cases hl with
      | cons _ hb hnil => rwa [atMarker_append hbreak ⟨_, _, hb, rfl⟩] at hat
    have hline : BodyOf (rows + blank.length) [l] [i] :=
      .single (hunmarked (by decide) hpos) (hunmarked (by decide) hlast) hcode hheld
    refine ⟨blank ++ ([l] ++ lines), hblank.append (hl.append hopens), ?_, hmarker⟩
    exact (BodyOf.empty hspaces).append (hline.append hbody)

/-- Behind its body, a listing goes on. -/
theorem ne_nil_of_ending {stop : Position} {u : Unit} {c₁ : Cursor} (h : positionData c = .done u c₁)
    (hend : ending c₁ = .done stop r) : c.rest ≠ [] := by
  obtain ⟨word, hword⟩ := ends_of_ending hend
  exact ne_nil_of_along (along_of_done h) hword.ne_nil

/-- **The sections of a listing are blocks of lines**: its head, its body, its positions and its
end. -/
theorem exists_lines_of_parse {text : String} {p : Program} (h : Program.parse text = .ok p) :
    ∃ before main body c₂ c₃ stop r, Opens c₂.rest (before ++ [main] ++ body) text.toList ∧
      (∀ l ∈ before, atMarker "/MN" l = false) ∧ atMarker "/MN" main ∧
      ReadAs headPart (before ++ [main]) ((p.name, p.subType), p.comment) ∧
      BodyOf (before.length + 1) body p.instructions ∧
      (atMarker "/POS" c₂.rest ∨ atMarker "/END" c₂.rest) ∧
      positionData c₂ = .done () c₃ ∧ ending c₃ = .done stop r := by
  obtain ⟨r, hdone⟩ := run_eq_ok.1 h
  obtain ⟨title, comment, is, stop, c₁, c₂, c₃, hhead, hbody, hpositions, hending, rfl⟩ :=
    program_eq_done_iff.1 hdone
  have halong := along_of_done hhead
  have hc₁ : c₁.Of text.toList := Cursor.Of.over ⟨[], .refl _⟩ halong
  have hne₂ := ne_nil_of_ending hpositions hending
  have hne₁ := ne_nil_of_along (body_bodyLines hc₁ hbody).along hne₂
  obtain ⟨before, main, hfront, hbefore, hmain, hread⟩ := headPart_lines hhead hne₁
  have hrow : c₁.position = ⟨before.length + 1 + 1, 1⟩ := by
    rw [position_of_opens hfront halong rfl, length_append, length_singleton,
      Nat.add_comm 1]
  obtain ⟨body, hlines, hheld, hat⟩ := bodyLines_lines hc₁ hrow hbody hne₂
  exact ⟨before, main, body, c₂, c₃, stop, r, hfront.append hlines, hbefore, hmain, hread, hheld, hat,
    hpositions, hending⟩

end

end Grammar

open Parsing Parsing.Parser Grammar in
/-- **A listing is read line by line.** Its instructions are those of the lines between the marker of
the body and the next marker, lines of spaces and tabs left aside: one instruction a line, and each
of them the one that its line holds by itself, in the row of the line. -/
theorem Program.instructions_of_lines {text : String} {p : Program}
    (h : Program.parse text = .ok p) :
    ∃ before main body stop behind,
      splitLines (unifyBreaks text.toList) = before ++ main :: (body ++ stop :: behind) ∧
      (∀ l ∈ before, atMarker "/MN" l = false) ∧ atMarker "/MN" main = true ∧
      (∀ l ∈ body, atMarker "/POS" l = false ∧ atMarker "/END" l = false) ∧
      (atMarker "/POS" stop = true ∨ atMarker "/END" stop = true) ∧
      List.Forall₂
        (fun line i => ∃ j, Instruction.parse (String.ofList line.1) = .ok j ∧
          i = j.view (.lowered line.2))
        ((body.zipIdx (before.length + 1)).filter fun line => !line.1.all isSpaceOrTab)
        p.instructions := by
  obtain ⟨before, main, body, c₂, -, -, -, hlines, hbefore, hmain, -, ⟨hunmarked, hheld⟩, hat, -⟩ :=
    exists_lines_of_parse h
  obtain ⟨stop, behind, hstop, hatStop⟩ : ∃ stop behind,
      splitLines (unifyBreaks c₂.rest) = stop :: behind ∧
        (atMarker "/POS" stop ∨ atMarker "/END" stop) := by
    rcases hat with hat | hat
    · obtain ⟨stop, behind, hsplit, hstop⟩ :=
        exists_splitLines_of_atMarker (m := ['P', 'O', 'S']) rfl (by decide) hat
      exact ⟨stop, behind, hsplit, .inl hstop⟩
    · obtain ⟨stop, behind, hsplit, hstop⟩ :=
        exists_splitLines_of_atMarker (m := ['E', 'N', 'D']) rfl (by decide) hat
      exact ⟨stop, behind, hsplit, .inr hstop⟩
  refine ⟨before, main, body, stop, behind, ?_, hbefore, hmain, hunmarked, hatStop, hheld⟩
  rw [hlines.splitLines_unifyBreaks, hstop, append_assoc, append_assoc,
    singleton_append]

open Grammar in
/-- Two body lines with different breaks, an empty line between them, a semicolon in a comment and a
marker in a string. -/
theorem Program.instructions_of_lines_mixed_breaks :
    let text := "/PROG A\r\n/MN\n 1: R[1:x;y]='/END' ;\r\n \t\n2:!n;\n/POS\n 3: bad\n/END"
    ∃ p, Program.parse text = .ok p ∧ p.instructions.map Instruction.row = [3, 5] ∧
      ∃ before main body stop behind,
        splitLines (unifyBreaks text.toList) = before ++ main :: (body ++ stop :: behind) ∧
        (∀ l ∈ before, atMarker "/MN" l = false) ∧ atMarker "/MN" main = true ∧
        (∀ l ∈ body, atMarker "/POS" l = false ∧ atMarker "/END" l = false) ∧
        (atMarker "/POS" stop = true ∨ atMarker "/END" stop = true) ∧
        List.Forall₂
          (fun line i => ∃ j, Instruction.parse (String.ofList line.1) = .ok j ∧
            i = j.view (.lowered line.2))
          ((body.zipIdx (before.length + 1)).filter fun line => !line.1.all isSpaceOrTab)
          p.instructions := by
  intro text
  have hrows : (Program.parse text).map (fun p => p.instructions.map Instruction.row) =
      .ok [3, 5] := by decide +kernel
  cases hparse : Program.parse text with
  | ok p =>
    rw [hparse] at hrows
    exact ⟨p, rfl, Except.ok.inj hrows, Program.instructions_of_lines hparse⟩
  | error e =>
    rw [hparse] at hrows
    cases hrows

end RobotSource.Listing
