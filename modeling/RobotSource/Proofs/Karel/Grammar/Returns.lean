import RobotSource.Proofs.Karel.Grammar.Declaration
import RobotSource.Proofs.Karel.Grammar.Locality
import RobotSource.Proofs.Parsing.Returns
/-!
# Karel programs with carriage returns

A carriage return before every line feed makes no difference to a Karel program: it is white space, it
is part of no comment and of no line, and the end of the code does not lie behind it. The text is read
as the same program, at the same places, with the same header (`keeps_program_returned`).
-/

namespace RobotSource.Karel.Grammar

open Parsing Parsing.Parser Text List

variable {text : List Char}

/-! ## White space and code -/

/-- White space on both sides is the same white space. -/
theorem blankLength_withReturns (comment : Bool) (t : List Char) :
    blankLength comment (withReturns t) =
      (withReturns (t.take (blankLength comment t))).length := by
  induction t generalizing comment with
  | nil => rfl
  | cons x t ih =>
    by_cases hx : x = '\n'
    · -- the carriage return is taken as the line feed is, and ends a comment as it does
      have hpair : blankLength comment ('\r' :: '\n' :: withReturns t) =
          blankLength false (withReturns t) + 1 + 1 := by
        cases comment <;> simp [blankLength, isBreak, isSpacing]
      have hfeed : blankLength comment ('\n' :: t) = blankLength false t + 1 := by
        cases comment <;> simp [blankLength, isBreak, isSpacing]
      rw [hx, withReturns_feed, hpair, hfeed, ih, take_succ_cons, withReturns_feed]
      rfl
    · have hhead := head?_withReturns_eq_iff (x := '-') rfl t
      rw [withReturns_cons hx]
      simp only [blankLength, hhead]
      split
      · split <;> rw [ih, take_succ_cons, withReturns_cons hx, length_cons]
      split
      · rw [ih, take_succ_cons, withReturns_cons hx, length_cons]
      split
      · rw [ih, take_succ_cons, withReturns_cons hx, length_cons]
      · rfl

theorem keeps_blanks_returned :
    Keeps (Returned text) (Returned text) (fun _ _ => True) blanks blanks := by
  intro c d hcd
  rw [blanks, blanks, ← hcd.rest, blankLength_withReturns]
  exact .done trivial (hcd.drop _)

/-- The scan for the end of the code takes no notice of carriage returns. -/
theorem scanCode_withReturns (quoted comment : Bool) (here last : Position) (t : List Char) :
    scanCode quoted comment here last (withReturns t) = scanCode quoted comment here last t := by
  induction t generalizing quoted comment here last with
  | nil => rfl
  | cons x t ih =>
    by_cases hx : x = '\n'
    · have hblank : isBlank '\r' := by decide
      have hnext : (here.after '\r').after '\n' = here.after '\n' := rfl
      rw [hx, withReturns_feed]
      cases comment <;> simp [scanCode, ih, hblank, hnext]
    · have hhead := head?_withReturns_eq_iff (x := '-') rfl t
      rw [withReturns_cons hx]
      simp only [scanCode, ih, hhead]

/-! ## Tokens -/

theorem margin_lineOver : Margin isBreak LineOver where
  toDelimits := encloses_lineOver.toDelimits
  marks := by decide

/-- A token that stays within the line. -/
theorem keeps_token_returned {α : Type} {p : Parser α} {V : α → α → Prop}
    (hp : Local LineOver p) (hV : ∀ a, V a a) : Agrees (Returned text) (Returned text) p V :=
  (Keeps.of_local (fun _ _ h => h.moves) hp).imp (fun _ _ h => h) fun a _ hab => hab ▸ hV a

/-- Places are the same on both sides. -/
theorem flush_returned {α β : Type} {V : α → β → Prop} {p : Parser α} {q : Parser β}
    (h : Keeps (Returned text) (Returned text) V p q) :
    Keeps (Returned text) (Flush (Returned text) .same .same) V p q :=
  h.imp (fun _ _ h => ⟨h, h.position⟩) fun _ _ h => h

theorem keeps_keyword_returned {V : String → String → Prop} {w : String}
    (hw : isApart isBreak w.toList) (hV : ∀ a, V a a) :
    Agrees (Returned text) (Returned text) (keyword w) V :=
  .keyword (fun _ _ h => h.matches hw) keeps_spaces_returned hV

theorem keeps_symbol_returned {sym : String} (hsym : isApart isBreak sym.toList) :
    Agrees (Returned text) (Returned text) (symbol sym) fun _ _ => True :=
  .symbol (fun _ _ h => h.matches hsym) keeps_spaces_returned

theorem keeps_directive_returned :
    Agrees (Returned text) (Returned text) directive
      fun a b => a.view .same = b.view .same := by
  have hline : Agrees (Returned text) (Returned text) directiveLine (· = ·) :=
    keeps_token_returned (local_directiveLine encloses_lineOver.toDelimits) fun _ => rfl
  have hdirective := keeps_directive hline (fun _ _ h => h.position) (fun _ _ h => h.position)
    keeps_blanks_returned
  exact hdirective.imp (fun _ _ h => h)
    fun a _ hab => congrArg (Directive.view .same) hab

theorem isApart_of_mem_keywords {w : String} (h : w ∈ keywords) :
    isApart isBreak w.toList := by
  revert w
  decide

theorem isApart_of_mem_symbols {s : String} (h : s ∈ symbols) :
    isApart isBreak s.toList := by
  revert s
  decide

theorem lexis_returned : Lexis (Returned text) (Returned text) .same .same where
  loose_of_tight _ _ h := h
  position _ _ h _ := h.position
  column := column_same
  code c d c' d' h h' hlt := by
    rw [← h.upTo h' (Nat.le_of_lt hlt), endOfCode, endOfCode, scanCode_withReturns, h.position]
  atEnd _ _ h := h.atEnd
  blanks := keeps_blanks_returned
  char x hx := by
    refine flush_returned (keeps_token_returned (margin_lineOver.char ?_) fun _ => trivial)
    exact mem_append_right _ hx
  symbol _ hs := keeps_symbol_returned (isApart_of_mem_symbols hs)
  keyword _ hw := keeps_keyword_returned (isApart_of_mem_keywords hw) fun _ => trivial
  identifier := keeps_token_returned (.identifier encloses_lineOver.toDelimits) fun _ => rfl
  name := keeps_token_returned (local_name encloses_lineOver.toDelimits) fun _ => rfl
  number := keeps_token_returned (local_number margin_lineOver) fun _ => rfl
  string := keeps_token_returned (local_stringLiteral encloses_lineOver (by decide)) fun _ => rfl
  system := keeps_token_returned (local_systemName margin_lineOver) fun _ => rfl
  programVariable := keeps_token_returned (local_programVariable margin_lineOver)
    fun _ => ⟨rfl, rfl⟩
  fieldName := flush_returned (keeps_token_returned (local_fieldName margin_lineOver)
    fun _ => rfl)
  labelMark :=
    (keeps_token_returned (V := (· = ·)) (local_name encloses_lineOver.toDelimits)
      fun _ => rfl).bind fun _ _ hab => keeps_spaces_returned.pass <|
      (keeps_symbol_returned (by decide)).pass <| .pure hab
  groupMark :=
    (keeps_keyword_returned (V := fun _ _ => True) (by decide) fun _ => trivial).pass <| (keeps_token_returned (V := fun _ _ => True) (margin_lineOver.char (by decide))
      fun _ => trivial).pass <| .pure trivial
  verb := (keeps_keyword_returned (by decide) fun _ => ⟨rfl, rfl⟩).orElse
    (keeps_keyword_returned (by decide) fun _ => ⟨rfl, rfl⟩)
  matching := matching_same
  type := typeOfWord_same

/-! ## Programs -/

theorem headerComment_withReturns {before after : List Char} (hbefore : '\r' ∉ before)
    (hafter : '\r' ∉ after) :
    headerComment (withReturns before) (withReturns after) = headerComment before after := by
  rw [headerComment, headerComment, textLines_withReturns hbefore, textLines_withReturns hafter]

/-- **A program with carriage returns is read as the program without.** -/
theorem keeps_program_returned :
    Keeps (Returned text) (Returned text) (fun p q => id p = q) program program := by
  have hlexis : Lexis (Returned text) (Returned text) .same .same := lexis_returned
  rw [program_eq]
  refine .cursor_bind_at fun c d hcd => ?_
  -- the text before the first word is compared, so the place behind it has to lie behind the first
  have hblanks : Agrees (fun c' d' => c' = c ∧ d' = d)
      (fun c' d' => Returned text c' d' ∧ c'.rest.length ≤ c.rest.length) blanks
      fun _ _ => True := by
    rintro _ _ ⟨rfl, rfl⟩
    exact (keeps_blanks_returned _ _ hcd).imp_done fun _ _ _ _ hdone _ _ h =>
      ⟨trivial, h, (along_of_done hdone).length_le⟩
  refine hblanks.pass <| .cursor_bind_at fun c₁ d₁ hcd₁ => ?_
  refine Keeps.of_imp (S := Returned text) ?_ (by rintro _ _ ⟨rfl, rfl⟩; exact hcd₁.1)
  refine .pass hlexis.kw <| hlexis.name.bind
    fun a b hab => keeps_spaces_returned.pass <| .cursor_bind fun c₂ d₂ hcd₂ => ?_
  refine (hlexis.content keeps_directive_returned fun _ _ h => h.position).bind
    fun k k' hk => .pure ?_
  have hbefore : '\r' ∉ c.upTo c₁ := fun hmem => hcd.returnFree (mem_of_mem_take hmem)
  have hheader : headerComment (d.upTo d₁) d₂.rest = headerComment (c.upTo c₁) c₂.rest := by
    rw [← hcd.upTo hcd₁.1 hcd₁.2, ← hcd₂.rest, headerComment_withReturns hbefore hcd₂.returnFree]
  obtain rfl : a = b := hab
  rw [id_eq, ← Program.view_same (k.program _ _ _), ← Program.view_same (k'.program _ _ _),
    Content.view_program, Content.view_program, hk.view_eq, hheader, hcd.position]

end RobotSource.Karel.Grammar
