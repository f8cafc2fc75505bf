import RobotSource.Proofs.Listing.Grammar.Seam
import RobotSource.Proofs.Listing.Rows
import RobotSource.Proofs.Parsing.Word
/-!
# Branches after lining up

The first character of a line decides which rules can read it. For a branch of a select these are
few (`rel_branching`, `rel_otherwise`), and they all read tokens. So a branch without the white space
around its seams is read as the branch that it was made of (`instructionKind_closed`), and an `ELSE,`
branch in its new form as the old one (`instructionKind_otherwise`). Nothing is read at white space
that is no space or tab (`flow_or_other_ne_done`).
-/

namespace RobotSource.Listing.Grammar

open Parsing Parsing.Parser Text
open List hiding takeWhile

variable {v : View} {c d e : Cursor} {x : Char}
variable {r c' : Cursor} {s : CaseShape} {w : String} {a : Action} {k : InstructionKind} {b : Char}
    {t gap code : List Char}

/-! ## Where no token begins -/

/-- Both cursors stand at the given place. -/
def Halted (e c d : Cursor) : Prop := c = e ∧ d = e

theorem keeps_halted {α : Type} {p : Parser α} {V : α → α → Prop} {x : Option Char}
    (h : FailsAt x p) (he : e.rest.head? = x) : Agrees (Halted e) (Halted e) p V := by
  rintro _ _ ⟨rfl, rfl⟩
  obtain ⟨err, herr⟩ := h _ he
  rw [herr]
  exact .failed

theorem ne_done_of_halted {α : Type} {p : Parser α} [Consumes p] {V : α → α → Prop} {a : α}
    (h : Agrees (Halted e) (Halted e) p V) : p e ≠ .done a r := by
  intro hdone
  obtain ⟨_, _, -, -, rfl, -⟩ := h.exists_right ⟨rfl, rfl⟩ hdone
  exact Nat.lt_irrefl _ (length_lt_of_done hdone)

section
variable (he : e.rest.head? = some x) (hx : isLineEnd x = true)
include hx

theorem beginsApart_of_isLineEnd (hw : isApart isLineEnd w.toList) :
    FailsAt.beginsApart x w.toList = true := by
  cases hword : w.toList with
  | nil =>
    rw [hword] at hw
    cases hw
  | cons b t =>
    have hne := lowerCase_ne_of_isApart (b := b) delimiter_isLineEnd hw hx (by simp [hword])
    simpa [FailsAt.beginsApart] using hne

theorem failsAt_symbol_of_isLineEnd (hw : isApart isLineEnd w.toList) :
    FailsAt x (symbol w) :=
  .symbol_apart (beginsApart_of_isLineEnd hx hw)

theorem failsAt_keyword_of_isLineEnd (hw : isApart isLineEnd w.toList) :
    FailsAt x (keyword w) :=
  .keyword_apart (beginsApart_of_isLineEnd hx hw)

theorem failsAt_digits_of_isLineEnd : FailsAt (some x) digits :=
  .takeWhile1 (delimiter_isLineEnd.digit hx)

theorem ne_of_isLineEnd {y : Char} (hy : isLineEnd y = false) : some x ≠ some y := by
  rintro ⟨rfl⟩
  rw [hx] at hy
  cases hy

include he

/-- **At the end of a line and at white space other than spaces and tabs no token is read.** -/
theorem wording_halted (hspace : isSpaceOrTab x = false) : Wording (Halted e) (Halted e) v v where
  loose_of_tight _ _ h := h
  position := by
    rintro _ _ ⟨rfl, rfl⟩
    rfl
  spaces := by
    have hnone : e.rest.takeWhile isSpaceOrTab = [] := by
      obtain ⟨t, ht⟩ := head?_eq_some_iff.1 he
      rw [ht, takeWhile_cons_of_neg (by simp [hspace])]
    have hdone : spaces e = .done () e := by
      rw [spaces, bind_apply, takeWhile, hnone]
      rfl
    rintro _ _ ⟨rfl, rfl⟩
    rw [hdone]
    exact .done trivial ⟨rfl, rfl⟩
  symbol s hs := keeps_halted (failsAt_symbol_of_isLineEnd hx
    (borders_lineRest.words s (mem_append_left _ hs))) he
  keyword w hw := keeps_halted (failsAt_keyword_of_isLineEnd hx
    (borders_lineRest.words w (mem_append_right _ (mem_append_left _ hw)))) he
  char y hy := by
    refine keeps_halted (.char (ne_of_isLineEnd hx ?_)) he
    simp only [mem_cons, not_mem_nil, or_false] at hy
    rcases hy with rfl | rfl | rfl <;> decide
  identifier := keeps_halted (.identifier (x := some x) (delimiter_isLineEnd.nameStart hx)) he
  number := keeps_halted (.recognized ((failsAt_digits_of_isLineEnd hx).bind.orElse
      (FailsAt.char (ne_of_isLineEnd hx (by decide))).bind)) he
  string := keeps_halted (failsAt_stringLiteral (ne_of_isLineEnd hx (by decide))
    (ne_of_isLineEnd hx (by decide))) he
  system := keeps_halted (failsAt_systemVariable (ne_of_isLineEnd hx (by decide))) he
  comment := keeps_halted (FailsAt.maybe_bind
    (FailsAt.char (ne_of_isLineEnd hx (by decide))).seqRight
    (FailsAt.char (ne_of_isLineEnd hx (by decide))).bind) he
  labelNumber := by
    refine keeps_halted (fun c hc => ?_) he
    obtain ⟨err, herr⟩ := failsAt_digits_of_isLineEnd hx c hc
    exact ⟨err, by rw [labelNumber, herr]⟩
  labelEnd := by
    have hfails := (FailsAt.char (ne_of_isLineEnd hx (y := ']') (by decide))).orElse
      (.char (ne_of_isLineEnd hx (y := ':') (by decide)))
    refine (keeps_halted (V := fun _ _ => True) hfails he).imp (fun _ _ _ => trivial) fun _ _ h => h
  note := keeps_halted (failsAt_symbol_of_isLineEnd hx (by decide)).seqRight he
  remark := keeps_halted (failsAt_symbol_of_isLineEnd hx (by decide)).seqRight he
  message := keeps_halted (failsAt_keyword_of_isLineEnd hx (by decide)).seqRight he

theorem action_ne_done (hspace : isSpaceOrTab x = false) : action e ≠ .done a r :=
  ne_done_of_halted (wording_halted (v := .same) he hx hspace).toLexis.action

theorem flow_or_other_ne_done (hspace : isSpaceOrTab x = false) :
    (flowInstruction <|> otherInstruction) e ≠ .done k r :=
  ne_done_of_halted ((wording_halted (v := .same) he hx hspace).flowInstruction.orElse
    (wording_halted he hx hspace).otherInstruction)

end

/-! ## Rules that the first character leaves over -/

section
variable {α : Type} {p q q' : Parser α} {o o' o'' : Outcome α}

theorem rel_refl (o : Outcome α) : o.Rel (· = ·) (· = ·) o := by
  cases o with
  | done => exact .done rfl rfl
  | failed => exact .failed
  | aborted => exact .aborted

theorem rel_trans (h : o.Rel (· = ·) (· = ·) o') (h' : o'.Rel (· = ·) (· = ·) o'') :
    o.Rel (· = ·) (· = ·) o'' := by
  cases h with
  | done hvalue hrest => rwa [hvalue, hrest]
  | failed =>
    cases h'
    exact .failed
  | aborted =>
    cases h'
    exact .aborted

theorem done_iff_of_rel {a : α} (h : o.Rel (· = ·) (· = ·) o') :
    o = .done a r ↔ o' = .done a r := by
  cases h with
  | done hvalue hrest => rw [hvalue, hrest]
  | failed => simp
  | aborted => simp

/-- An alternative that fails may be left out. -/
theorem rel_orElse_right {x : Option Char} (h : FailsAt x p) (hc : c.rest.head? = x)
    (hq : (q c).Rel (· = ·) (· = ·) o) : ((p <|> q) c).Rel (· = ·) (· = ·) o := by
  obtain ⟨err, herr⟩ := h c hc
  change (Parser.orElse p q c).Rel (· = ·) (· = ·) o
  rw [Parser.orElse, herr]
  cases hq' : q c with
  | done => rwa [hq'] at hq
  | failed =>
    rw [hq'] at hq
    cases hq
    exact .failed
  | aborted => rwa [hq'] at hq

theorem rel_orElse_left {x : Option Char} (h : FailsAt x q) (hc : c.rest.head? = x) :
    ((p <|> q) c).Rel (· = ·) (· = ·) (p c) := by
  obtain ⟨err, herr⟩ := h c hc
  change (Parser.orElse p q c).Rel (· = ·) (· = ·) (p c)
  rw [Parser.orElse, herr]
  cases p c with
  | done => exact .done rfl rfl
  | failed => exact .failed
  | aborted => exact .aborted

end

/-- The rules of the control flow that can read a line beginning with an E, an S or an equals
sign. -/
def flowOfSelect : Parser InstructionKind :=
  elseBranch <|> (keyword "ENDIF" *> pure .endIf) <|> (keyword "ENDFOR" *> pure .endFor) <|>
  (keyword "END" *> pure .endProgram) <|> select <|> (.case <$> (symbol "=" *> caseBranch))

/-- Those of them that can if it is no E. -/
def flowOfBranch : Parser InstructionKind := select <|> (.case <$> (symbol "=" *> caseBranch))

/-- Those of them that can if it is an E. -/
def flowOfElse : Parser InstructionKind :=
  elseBranch <|> (keyword "ENDIF" *> pure .endIf) <|> (keyword "ENDFOR" *> pure .endFor) <|>
  (keyword "END" *> pure .endProgram)

/-- The other rules that can read a line beginning with an E, an S or an equals sign. -/
def otherOfBranch : Parser InstructionKind :=
  (.skipCondition <$> (keyword "SKIP" *> keyword "CONDITION" *> expression)) <|>
  (.assign <$> assignment)

section
variable {xs : List Char} (hx : x ∈ xs)
include hx

theorem failsAt_keyword_of_mem (h : ∀ y ∈ xs, FailsAt.beginsApart y w.toList = true := by decide) :
    FailsAt x (keyword w) :=
  .keyword_apart (h x hx)

theorem failsAt_symbol_of_mem (h : ∀ y ∈ xs, FailsAt.beginsApart y w.toList = true := by decide) :
    FailsAt x (symbol w) :=
  .symbol_apart (h x hx)

end

theorem failsAt_semicolon (h : x ≠ ';') :
    FailsAt x (lookahead (char ';') *> pure InstructionKind.blank) := by
  refine FailsAt.bind fun c hc => ?_
  obtain ⟨err, herr⟩ := FailsAt.char (x := some x) (by simpa using h) c hc
  exact ⟨err, by rw [lookahead, herr]⟩

theorem failsAt_motion {xs : List Char} (hx : x ∈ xs)
    (h : ∀ y ∈ xs, ∀ b ∈ ['J', 'L', 'C', 'A'], lowerCase y ≠ lowerCase b) : FailsAt x motion := by
  have hletter {w : String} {b : Char} (hw : w.toList = [b]) (hb : b ∈ ['J', 'L', 'C', 'A']) :
      FailsAt x (keyword w) := .keyword hw (by simpa using h x hx b hb)
  exact FailsAt.bind <| (hletter rfl (by decide)).seqRight.orElse <|
    (hletter rfl (by decide)).seqRight.orElse <| (hletter rfl (by decide)).seqRight.orElse
      (hletter rfl (by decide)).seqRight

/-- **Who reads a line that begins with an E, an S or an equals sign.** -/
theorem rel_select (hx : x ∈ ['e', 'E', '=', 's', 'S', 'ſ']) (hc : c.rest.head? = some x) :
    (instructionKind c).Rel (· = ·) (· = ·) ((flowOfSelect <|> otherOfBranch) c) := by
  have hflow : (flowInstruction c).Rel (· = ·) (· = ·) (flowOfSelect c) := by
    refine rel_orElse_right (failsAt_symbol_of_mem hx).seqRight.map hc ?_
    refine rel_orElse_right (failsAt_symbol_of_mem hx).seqRight.map hc ?_
    refine rel_orElse_right (.map (.bind (.bind (.spanned (failsAt_keyword_of_mem hx).bind)))) hc ?_
    refine rel_orElse_right (failsAt_keyword_of_mem hx).seqRight.map hc ?_
    refine rel_orElse_right (failsAt_keyword_of_mem hx).seqRight.map hc ?_
    refine rel_orElse_right (failsAt_keyword_of_mem hx).seqRight.map hc ?_
    refine rel_orElse_right (failsAt_keyword_of_mem hx).seqRight.bind hc ?_
    refine (rel_refl _).orElse ((rel_refl _).orElse ((rel_refl _).orElse ((rel_refl _).orElse ?_)))
    exact rel_orElse_right (failsAt_keyword_of_mem hx).bind hc (rel_refl _)
  have hother : (otherInstruction c).Rel (· = ·) (· = ·) (otherOfBranch c) := by
    refine rel_orElse_right (failsAt_keyword_of_mem hx).bind hc ?_
    refine (rel_refl _).orElse ?_
    refine rel_orElse_right (failsAt_keyword_of_mem hx).seqRight.map hc ?_
    refine rel_orElse_right (failsAt_keyword_of_mem hx).seqRight hc ?_
    refine rel_orElse_right (failsAt_keyword_of_mem hx).seqRight hc ?_
    exact rel_orElse_right (failsAt_motion hx (by decide)).map hc (rel_refl _)
  refine rel_orElse_right (failsAt_semicolon ?_) hc (hflow.orElse hother)
  rintro rfl
  exact absurd hx (by decide)

/-- An equals sign or an S leaves the branches of a select. -/
theorem rel_branching (hx : x ∈ ['=', 's', 'S', 'ſ']) (hc : c.rest.head? = some x) :
    (instructionKind c).Rel (· = ·) (· = ·) ((flowOfBranch <|> otherOfBranch) c) := by
  have hflow : (flowOfSelect c).Rel (· = ·) (· = ·) (flowOfBranch c) := by
    refine rel_orElse_right (failsAt_keyword_of_mem hx).seqRight.bind hc ?_
    refine rel_orElse_right (failsAt_keyword_of_mem hx).seqRight hc ?_
    refine rel_orElse_right (failsAt_keyword_of_mem hx).seqRight hc ?_
    exact rel_orElse_right (failsAt_keyword_of_mem hx).seqRight hc (rel_refl _)
  refine rel_trans (rel_select ?_ hc) (hflow.orElse (rel_refl _))
  exact mem_cons_of_mem _ (mem_cons_of_mem _ hx)

/-- An E leaves the last branch of a select, the ends of blocks and assignments. -/
theorem rel_otherwise (hx : x ∈ ['e', 'E']) (hc : c.rest.head? = some x) :
    (instructionKind c).Rel (· = ·) (· = ·)
      ((flowOfElse <|> (InstructionKind.assign <$> assignment)) c) := by
  have hflow : (flowOfSelect c).Rel (· = ·) (· = ·) (flowOfElse c) := by
    refine (rel_refl _).orElse ((rel_refl _).orElse ((rel_refl _).orElse (rel_orElse_left ?_ hc)))
    exact (failsAt_keyword_of_mem hx).bind.orElse (failsAt_symbol_of_mem hx).seqRight.map
  refine rel_trans (rel_select ?_ hc) (hflow.orElse
    (rel_orElse_right (failsAt_keyword_of_mem hx).seqRight.seqRight.map hc (rel_refl _)))
  exact mem_append_left ['=', 's', 'S', 'ſ'] hx

/-! ## Branches -/

instance : Reads (Rests Lexed) (flowOfBranch <|> otherOfBranch) := by
  unfold flowOfBranch otherOfBranch select
  infer_instance

theorem Lexis.branch {loose tight : Cursor → Cursor → Prop} {v' : View}
    (L : Lexis loose tight v v') :
    Agrees tight tight (flowOfBranch <|> otherOfBranch) fun a b => a.view v = b.view v' := by
  refine .orElse (L.select.orElse (.map_view (.seqRight L.sym L.caseBranch))) ?_
  exact .orElse (.map_view (.seqRight (.seqRight L.kw L.kw) L.expression))
    (.map_view L.assignment)

/-- A text without seams and literals corresponds to itself alone. -/
theorem Spot.eq_of_plain {t' : List Char} (h : Spot v t t')
    (ht : ∀ y ∈ t, isSeam y = false ∧ isLiteralStart y = false) : t = t' := by
  induction h with
  | same => rfl
  | plain _ _ _ ih => rw [ih fun y hy => ht y (mem_cons_of_mem _ hy)]
  | @seam m g g' t t' hm _ _ _ _ =>
    rw [(ht m (by simp)).1] at hm
    cases hm
  | @literal s s' y t t' r r' hs _ _ _ _ =>
    have hstart := isLiteralStart_of_literal? hs
    rw [(ht y mem_cons_self).2] at hstart
    cases hstart

theorem plain_of_spaces (hgap : ∀ y ∈ gap, isSpaceOrTab y) :
    ∀ y ∈ gap ++ [';'], isSeam y = false ∧ isLiteralStart y = false := by
  intro y hy
  rcases mem_append.1 hy with hy | hy
  · have hy := hgap y hy
    simp only [isSpaceOrTab, Bool.or_eq_true, beq_iff_eq] at hy
    rcases hy with rfl | rfl <;> decide
  · rw [mem_singleton.1 hy]
    decide

/-- A branch is its closed form with white space around the seams. -/
theorem exists_gaps_of_caseShape (h : caseShape? code = some s) :
    ∃ g₁ g₂ g₃ g₄, (∀ y ∈ g₁ ++ g₂ ++ g₃ ++ g₄, isBlank y) ∧
      code = trimEnd s.head ++ (g₁ ++ '=' :: (g₂ ++ (trim s.value ++ (g₃ ++ ',' ::
        (g₄ ++ trimStart s.action))))) := by
  obtain ⟨hcode, -, -⟩ := caseShape?_eq_some_iff.1 h
  obtain ⟨g₁, hhead, hg₁⟩ := exists_eq_dropEndWhile_append isBlank s.head
  obtain ⟨g₃, hvalue, hg₃⟩ := exists_eq_dropEndWhile_append isBlank (trimStart s.value)
  have hstart (t : List Char) : t.takeWhile isBlank ++ trimStart t = t :=
    takeWhile_append_dropWhile
  refine ⟨g₁, s.value.takeWhile isBlank, g₃, s.action.takeWhile isBlank, ?_, ?_⟩
  · intro y hy
    simp only [mem_append] at hy
    rcases hy with ((hy | hy) | hy) | hy
    · exact hg₁ y hy
    · exact all_eq_true.1 all_takeWhile y hy
    · exact hg₃ y hy
    · exact all_eq_true.1 all_takeWhile y hy
  · calc code = s.head ++ '=' :: (s.value ++ ',' :: s.action) := hcode
      _ = (trimEnd s.head ++ g₁) ++ '=' :: ((s.value.takeWhile isBlank ++ (trim s.value ++ g₃)) ++
            ',' :: (s.action.takeWhile isBlank ++ trimStart s.action)) := by
        rw [hstart s.action, trim, trimEnd, trimEnd, ← hvalue, hstart s.value, ← hhead]
      _ = _ := by simp only [append_assoc]

/-- A branch without the white space around its seams is cut there. -/
theorem cut_closed (h : caseShape? code = some s) (hline : '\n' ∉ code)
    (e : List Char) : Cut (code ++ e) (s.closed ++ e) := by
  obtain ⟨g₁, g₂, g₃, g₄, hblank, hcode⟩ := exists_gaps_of_caseShape h
  rw [hcode] at hline
  simp only [mem_append, mem_cons, not_or] at hline hblank
  obtain ⟨hhead, h₁, -, h₂, hvalue, h₃, -, h₄, -⟩ := hline
  have hgap {g : List Char} (hg : ∀ y ∈ g, isBlank y) (hfree : '\n' ∉ g) :
      ∀ y ∈ g, isGap y := by
    intro y hy
    have hne : y ≠ '\n' := fun heq => hfree (heq ▸ hy)
    simp [isGap, hg y hy, hne]
  simp only [hcode, CaseShape.closed, append_assoc, cons_append]
  refine .append hhead (.seam (by decide) (hgap (fun y hy => hblank y ?_) h₁)
    (hgap (fun y hy => hblank y ?_) h₂) (.append hvalue (.seam (by decide)
      (hgap (fun y hy => hblank y ?_) h₃) (hgap (fun y hy => hblank y ?_) h₄) (.refl _))))
  · exact .inl (.inl (.inl hy))
  · exact .inl (.inl (.inr hy))
  · exact .inl (.inr hy)
  · exact .inr hy

theorem not_isSpaceOrTab_of_mem (h : x ∈ ['=', 's', 'S', 'ſ']) : isSpaceOrTab x = false := by
  revert x
  decide

/-- A branch begins with its equals sign or with an S. -/
theorem head?_of_caseHead {u : List Char} (h : u = [] ∨ isSelect u) :
    ∃ x ∈ ['=', 's', 'S', 'ſ'], (u ++ '=' :: t).head? = some x := by
  rcases h with rfl | h
  · exact ⟨'=', by decide, rfl⟩
  · obtain ⟨x, -, rfl, hx⟩ := exists_cons_of_isSelect h
    refine ⟨x, ?_, rfl⟩
    rcases isLetter_iff.1 hx with hlower | ⟨-, rfl⟩
    · rcases eq_or_eq_of_toLower_eq (by decide) hlower with rfl | rfl <;> decide
    · decide

theorem head?_closed (h : caseShape? code = some s)
    (e : List Char) : ∃ x ∈ ['=', 's', 'S', 'ſ'], (s.closed ++ e).head? = some x := by
  obtain ⟨-, -, hhead⟩ := caseShape?_eq_some_iff.1 h
  have hfirst := head?_of_caseHead (u := trimEnd s.head)
    (t := trim s.value ++ ',' :: trimStart s.action ++ e) <| by
      rcases hhead with hnil | ⟨hselect, -⟩
      · exact .inl (by rw [hnil]; rfl)
      · exact .inr (by rw [isSelect_trimEnd, hselect])
  simpa [CaseShape.closed] using hfirst

/-- **A branch is read as before when the white space around its seams is gone.** -/
theorem instructionKind_closed (hplace : ∀ p q, v.position p = v.position q)
    (h : caseShape? code = some s) (hline : '\n' ∉ code) (hkept : KeptLiterals v code s.closed)
    (hgap : ∀ y ∈ gap, isSpaceOrTab y) (hc : c.rest = code ++ [' ', ';'])
    (hd : d.rest = s.closed ++ [' ', ';']) (hk : Reaches instructionKind c k (gap ++ [';'])) :
    ∃ k', Reaches instructionKind d k' (gap ++ [';']) ∧ k.view v = k'.view v := by
  obtain ⟨hcode, -, hhead⟩ := caseShape?_eq_some_iff.1 h
  obtain ⟨x, hx, hcx⟩ : ∃ x ∈ ['=', 's', 'S', 'ſ'], c.rest.head? = some x := by
    have hhead := head?_of_caseHead (t := s.value ++ ',' :: s.action ++ [' ', ';'])
      (hhead.imp_right And.left)
    simpa [hc, hcode] using hhead
  obtain ⟨y, hy, hdy⟩ : ∃ y ∈ ['=', 's', 'S', 'ſ'], d.rest.head? = some y :=
    hd ▸ head?_closed h [' ', ';']
  obtain ⟨c', hdone, hc'⟩ := hk
  have hbranch := (done_iff_of_rel (rel_branching hx hcx)).1 hdone
  -- what has been read goes up to the semicolon, so the places correspond
  have hlexed : Lexed c.rest [';'] := by
    have hrest := lexed_of_done hbranch
    rw [hc'] at hrest
    exact hrest.trans (.append fun z hz => isInert_of_isSpaceOrTab (hgap z hz))
  have hends : LineRest [' ', ';'] := .inr ⟨[' '], [], [], rfl, by decide, by simp, by simp⟩
  have hspot : Spot v c.rest d.rest := by
    rw [hc] at hlexed
    rw [hc, hd]
    refine .of_lexed hlexed rfl (by decide) (cut_closed h hline _) (hkept.of_eq ?_ ?_)
    · rw [literals_append_of_lineRest hends (by decide)]
    · rw [literals_append_of_lineRest hends (by decide)]
  have htight : Tight v c d := ⟨hspot, by simp [hcx, not_isSpaceOrTab_of_mem hx],
    by simp [hdy, not_isSpaceOrTab_of_mem hy]⟩
  obtain ⟨k', d', hdone', hview, hrest, -⟩ :=
    (lexis_spot hplace).branch.exists_right htight hbranch
  refine ⟨k', ⟨d', (done_iff_of_rel (rel_branching hy hdy)).2 hdone', ?_⟩, hview⟩
  rw [Loose, hc'] at hrest
  exact (hrest.eq_of_plain (plain_of_spaces hgap)).symm

/-! ## The last branch -/

/-- A keyword beginning with E and another letter than L is not read where these two stand. -/
theorem keyword_ne_done_of_letters {a : String} {b' y : Char} {u : List Char}
    (hw : w.toList = b :: b' :: t) (hspelled : isSpelledOut w.toList)
    (hc : c.rest = x :: y :: u) (hy : y.toLower ≠ b'.toLower) : keyword w c ≠ .done a r := by
  intro hdone
  obtain ⟨k, hk, -⟩ := keyword_eq_done hdone
  obtain ⟨rfl, hsame⟩ := same_of_matchLength? hspelled hk
  rw [hc, hw] at hsame
  simp only [sameCharsIgnoringCase, length_cons, take_succ_cons, map_cons,
    beq_iff_eq, List.cons.injEq] at hsame
  exact hy hsame.2.1

/-- A comma comes before any equals sign and any opening bracket. -/
def CommaFirst (t : List Char) : Prop :=
  ∃ l rest, t = l ++ ',' :: rest ∧ ∀ y ∈ l, y ≠ '=' ∧ y ≠ '['

theorem CommaFirst.drop_takeWhile {q : Char → Bool} (h : CommaFirst t)
    (hq : q ',' = false) : CommaFirst (t.drop (t.takeWhile q).length) := by
  obtain ⟨l, rest, rfl, hl⟩ := h
  refine ⟨l.drop (l.takeWhile q).length, rest, ?_, fun y hy => hl y (mem_of_mem_drop hy)⟩
  rw [takeWhile_append_cons hq, drop_append_of_le_length (List.takeWhile_prefix q).length_le]

theorem CommaFirst.head? (h : CommaFirst t) : t.head? ≠ some '=' ∧ t.head? ≠ some '[' := by
  obtain ⟨l, rest, rfl, hl⟩ := h
  cases l with
  | nil => simp
  | cons y l => simpa using hl y mem_cons_self

/-- No assignment is read where a comma comes first. -/
theorem assignment_ne_done {a : Assignment} (hx : x ∈ ['e', 'E']) (hc : c.rest.head? = some x)
    (hcomma : CommaFirst c.rest) : assignment c ≠ .done a r := by
  intro hdone
  obtain ⟨target, c₁, hprimary, sym, c₂, hequals, -⟩ := bind₂_eq_done.1 hdone
  obtain ⟨_, c₃, hlexeme, h⟩ := bind_eq_done.1 hprimary
  cases h
  obtain ⟨_, c₄, hspanned, u, c₅, hspaces, h⟩ := bind₂_eq_done.1 hlexeme
  cases h
  obtain ⟨build, hoperand, -⟩ := spanned_eq_done.1 hspanned
  have hname {name : String} {c' : Cursor} (h : identifier c = .done name c') :
      CommaFirst c'.rest := by
    obtain ⟨-, rfl, rfl⟩ := identifier_eq_done.1 h
    exact hcomma.drop_takeWhile (by decide)
  have hfails {α : Type} {p : Parser α} (h : FailsAt 'e' p ∧ FailsAt 'E' p) : FailsAt x p := by
    simp only [mem_cons, not_mem_nil, or_false] at hx
    rcases hx with rfl | rfl
    · exact h.1
    · exact h.2
  -- only a name can stand there, and no bracket or equals sign comes behind it
  have hbehind : CommaFirst c₄.rest := by
    have hsymbol : FailsAt x (symbol "(") := hfails ⟨(.symbol_apart (by decide)), (.symbol_apart (by decide))⟩
    have hdigits : FailsAt x digits := hfails ⟨.takeWhile1 (by decide), .takeWhile1 (by decide)⟩
    have hpoint : FailsAt x (char '.') := hfails ⟨.char (by decide), .char (by decide)⟩
    have hstring : FailsAt x stringLiteral := hfails
      ⟨failsAt_stringLiteral (by decide) (by decide), failsAt_stringLiteral (by decide) (by decide)⟩
    have hsystem : FailsAt x systemVariable :=
      hfails ⟨failsAt_systemVariable (by decide), failsAt_systemVariable (by decide)⟩
    have hnumber : FailsAt x number := .recognized (hdigits.bind.orElse hpoint.bind)
    have hoperand := (hsymbol.bind.orElse_right_iff hc).1 hoperand
    have hoperand := (hnumber.bind.orElse_right_iff hc).1 hoperand
    have hoperand := (hstring.bind.orElse_right_iff hc).1 hoperand
    have hoperand := (hsystem.bind.orElse_right_iff hc).1 hoperand
    rcases orElse_eq_done hoperand with hregister | hidentifier
    · obtain ⟨kind, c', hkind, _, c'', hbracket, -⟩ := bind₂_eq_done.1 hregister
      obtain ⟨-, -, t, ht⟩ := char_eq_done.1 hbracket
      exact absurd (by rw [ht]; rfl) (hname hkind).head?.2
    · obtain ⟨name, c', hname', h⟩ := bind_eq_done.1 hidentifier
      cases h
      exact hname hname'
  have hstop : CommaFirst c₁.rest := by
    cases hspaces
    exact hbehind.drop_takeWhile (by decide)
  obtain ⟨t, ht, -⟩ := symbol_marks_eq_done (by decide) hequals
  exact hstop.head?.1 (by rw [ht]; rfl)

/-- What counts as a word has as many characters, all of them characters of words. -/
theorem word_of_afterLetters? {letters word : List Char}
    (hletters : ∀ l ∈ letters, isWordCharacter l) (h : afterLetters? letters word = some []) :
    word.length = letters.length ∧ ∀ y ∈ word, isWordCharacter y := by
  induction letters generalizing word with
  | nil =>
    cases h
    exact ⟨rfl, by simp⟩
  | cons l letters ih =>
    obtain ⟨hl, hletters⟩ := forall_mem_cons.1 hletters
    cases word with
    | nil => cases h
    | cons y word =>
      rw [afterLetters?] at h
      split at h
      · rename_i hy
        obtain ⟨hlength, hword⟩ := ih hletters h
        refine ⟨by rw [length_cons, length_cons, hlength],
          forall_mem_cons.2 ⟨?_, hword⟩⟩
        by_contra hnot
        rw [isLetter_eq_false hl (Bool.eq_false_iff.2 hnot)] at hy
        cases hy
      · cases h

/-- Behind the comma of an `ELSE,` branch, an action has been read. -/
theorem elseBranch_eq_done {word g : List Char} (hword : word.length = 4)
    (hg : ∀ y ∈ g, isBlank y) (hc : c.rest = word ++ (g ++ ',' :: t)) (hc' : ',' ∉ c'.rest)
    (h : elseBranch c = .done k c') :
    ∃ a c₂, k = .caseElse a ∧ action c₂ = .done a c' ∧ c₂.rest = t.dropWhile isSpaceOrTab := by
  obtain ⟨o, c₁, h₁, h⟩ := bind_eq_done.1 h
  obtain ⟨_, c₀, hkeyword, hmaybe⟩ := seqRight_eq_done.1 h₁
  obtain ⟨j, hj, -, -, hc₀⟩ := keyword_eq_done hkeyword
  obtain ⟨rfl, -⟩ := same_of_matchLength? (by decide) hj
  have hdrop : c₀.rest = g.dropWhile isSpaceOrTab ++ ',' :: t := by
    rw [hc₀, hc, show "ELSE".toList.length = word.length from hword.symm, drop_left]
    conv_rhs => rw [← drop_length_takeWhile]
    rw [← drop_length_takeWhile, takeWhile_append_cons (by decide),
      drop_append_of_le_length (List.takeWhile_prefix _).length_le]
  rcases maybe_eq_done hmaybe with ⟨a, rfl, haction⟩ | ⟨rfl, rfl⟩
  · cases h
    obtain ⟨_, c₂, hcomma, haction⟩ := seqRight_eq_done.1 haction
    refine ⟨a, c₂, rfl, haction, ?_⟩
    obtain ⟨s, hs, -, hc₂⟩ := symbol_marks_eq_done (by decide) hcomma
    rw [hdrop] at hs
    -- white space of another kind would stand in front of the comma
    cases hrest : g.dropWhile isSpaceOrTab with
    | nil =>
      rw [hrest] at hs
      cases hs
      exact hc₂
    | cons y l =>
      have hy : y ∈ g := (dropWhile_suffix isSpaceOrTab).subset (by simp [hrest])
      rw [hrest] at hs
      cases hs
      exact absurd (hg ',' hy) (by decide)
  · cases h
    rw [hdrop] at hc'
    exact absurd (mem_append_right _ mem_cons_self) hc'

/-- White space in front of an action that is read is spaces and tabs. -/
theorem trimStart_of_action {rest : List Char}
    (hc : c.rest = (rest ++ [' ', ';']).dropWhile isSpaceOrTab) (h : action c = .done a r) :
    c.rest = trimStart rest ++ [' ', ';'] ∧ c.rest.head?.any isBlank = false := by
  rw [dropWhile_append] at hc
  cases hcode : rest.dropWhile isSpaceOrTab with
  | nil =>
    have hend : c.rest.head? = some ';' := by
      rw [hc, hcode]
      rfl
    exact absurd h (action_ne_done hend rfl rfl)
  | cons y t =>
    rw [hcode, if_neg (by simp)] at hc
    have hspace : isSpaceOrTab y = false := by
      simpa [hcode] using head?_dropWhile_any isSpaceOrTab rest
    have hblank : isBlank y = false := by
      cases hblank : isBlank y with
      | false => rfl
      | true => exact absurd h (action_ne_done (by rw [hc]; rfl) (by simp [isLineEnd, hblank]) hspace)
    have hstart : trimStart rest = y :: t := by
      rw [trimStart, ← takeWhile_append_dropWhile (p := isSpaceOrTab) (l := rest), hcode,
        dropWhile_append_of_pos, dropWhile_cons_of_neg (by simp [hblank])]
      exact fun z hz => isBlank_of_isSpaceOrTab (all_eq_true.1 all_takeWhile z hz)
    exact ⟨by rw [hc, hstart], by simp [hc, hblank]⟩

/-- Of the rules that are left, only the one of this branch reads it. -/
theorem elseBranch_of_instructionKind {branch e : List Char} (h : elseAction? code = some branch)
    (hc : c.rest = code ++ e)
    (hdone : instructionKind c = .done k c') : elseBranch c = .done k c' := by
  obtain ⟨x, y, u, hxy, hx, hy⟩ := exists_cons_of_elseAction h
  obtain ⟨word, g, rest, rfl, hword, hg, rfl⟩ := elseAction?_eq_some_iff.1 h
  obtain ⟨-, hletters⟩ := word_of_afterLetters? (by decide) hword
  have hfirst : x ∈ ['e', 'E'] := by
    rcases isLetter_iff.1 hx with hlower | ⟨hs, -⟩
    · rcases eq_or_eq_of_toLower_eq (by decide) hlower with rfl | rfl <;> decide
    · cases hs
  have hsecond : y.toLower = 'l' := by
    rcases isLetter_iff.1 hy with hlower | ⟨hs, -⟩
    · exact hlower
    · cases hs
  have hcxy : c.rest = x :: y :: (u ++ e) := by
    rw [hc, hxy]
    rfl
  have hcx : c.rest.head? = some x := by rw [hcxy]; rfl
  have hcomma : CommaFirst c.rest := by
    refine ⟨word ++ g, rest ++ e, by simp [hc], fun z hz => ?_⟩
    rcases mem_append.1 hz with hz | hz
    · constructor <;> rintro rfl <;> exact absurd (hletters _ hz) (by decide)
    · constructor <;> rintro rfl <;> exact absurd (hg _ hz) (by decide)
  have hend {w : String} {kind : InstructionKind} {b b' : Char} {t : List Char}
      (hw : w.toList = b :: b' :: t) (hspelled : isSpelledOut w.toList)
      (hb : b'.toLower ≠ 'l') : (keyword w *> pure kind) c ≠ .done k c' := by
    intro h
    obtain ⟨_, _, hkeyword, -⟩ := seqRight_eq_done.1 h
    exact keyword_ne_done_of_letters hw hspelled hcxy (by rw [hsecond]; exact hb.symm) hkeyword
  rcases orElse_eq_done ((done_iff_of_rel (rel_otherwise hfirst hcx)).1 hdone) with hflow | hassign
  · refine (orElse_eq_done hflow).resolve_right fun h => ?_
    rcases orElse_eq_done h with h | h
    · exact hend rfl (by decide) (by decide) h
    rcases orElse_eq_done h with h | h
    · exact hend rfl (by decide) (by decide) h
    · exact hend rfl (by decide) (by decide) h
  · obtain ⟨a, hassign, -⟩ := map_eq_done.1 hassign
    exact absurd hassign (assignment_ne_done hfirst hcx hcomma)

/-- An action that is read is read behind `ELSE,` as well. -/
theorem exists_elseBranch (hplace : ∀ p q, v.position p = v.position q) (hc : c.rest = t)
    (hd : d.rest = ['E', 'L', 'S', 'E', ','] ++ t) (ht : t.head?.any isSpaceOrTab = false)
    (h : action c = .done a c') :
    ∃ a' d', elseBranch d = .done (.caseElse a') d' ∧ a.view v = a'.view v ∧
      Spot v c'.rest d'.rest := by
  obtain ⟨_, d₁, hkeyword, hd₁⟩ := keyword_of_same (w := "ELSE") (u := ['E', 'L', 'S', 'E'])
    (c := d) (by decide) (by decide) hd (by decide) rfl
  obtain ⟨_, d₂, hsymbol, hd₂⟩ := symbol_of_same (w := ",") (c := d₁) (t := t) (by decide) hd₁
  have hsame : d₂.rest = c.rest := by
    rw [hd₂, hc]
    cases t with
    | nil => rfl
    | cons z t => exact dropWhile_cons_of_neg (by simpa using ht)
  have htight : Tight v c d₂ := by
    refine ⟨?_, hc ▸ ht, by rw [hsame, hc, ht]⟩
    rw [Loose, hsame]
    exact .same _
  obtain ⟨a', d', haction, hview, hspot, -⟩ := (lexis_spot hplace).action.exists_right htight h
  have hmaybe : maybe (symbol "," *> action) d₁ = .done (some a') d' := by
    rw [maybe, seqRight_eq_done.2 ⟨_, d₂, hsymbol, haction⟩]
  exact ⟨a', d', bind_of_done (seqRight_eq_done.2 ⟨_, d₁, hkeyword, hmaybe⟩) rfl,
    hview, hspot⟩

/-- **An `ELSE,` branch is read as before in its new form.** -/
theorem instructionKind_otherwise {branch : List Char} (hplace : ∀ p q, v.position p = v.position q)
    (h : elseAction? code = some branch) (hgap : ∀ y ∈ gap, isSpaceOrTab y)
    (hc : c.rest = code ++ [' ', ';'])
    (hd : d.rest = ['E', 'L', 'S', 'E', ','] ++ branch ++ [' ', ';'])
    (hk : Reaches instructionKind c k (gap ++ [';'])) :
    ∃ k', Reaches instructionKind d k' (gap ++ [';']) ∧ k.view v = k'.view v := by
  obtain ⟨c', hdone, hc'⟩ := hk
  have hbranch := elseBranch_of_instructionKind h hc hdone
  obtain ⟨word, g, rest, rfl, hword, hg, rfl⟩ := elseAction?_eq_some_iff.1 h
  obtain ⟨hlength, -⟩ := word_of_afterLetters? (by decide) hword
  have hfree : ',' ∉ c'.rest := by
    intro hmem
    rw [hc'] at hmem
    exact absurd (plain_of_spaces hgap _ hmem).1 (by decide)
  obtain ⟨a, c₂, rfl, haction, hc₂⟩ := elseBranch_eq_done (t := rest ++ [' ', ';'])
    hlength hg (by simp [hc]) hfree hbranch
  obtain ⟨hrest, hblank⟩ := trimStart_of_action hc₂ haction
  have hnospace : c₂.rest.head?.any isSpaceOrTab = false := by
    cases hhead : c₂.rest.head? with
    | none => rfl
    | some z =>
      by_contra hz
      rw [hhead, Option.any_some, isBlank_of_isSpaceOrTab (by simpa using hz)] at hblank
      cases hblank
  obtain ⟨a', d', helse, hview, hspot⟩ := exists_elseBranch (d := d) hplace hrest
    (by rw [hd, append_assoc]) (hrest ▸ hnospace) haction
  refine ⟨.caseElse a', ⟨d', ?_, ?_⟩, ?_⟩
  · exact (done_iff_of_rel (rel_otherwise (x := 'E') (by decide) (by rw [hd]; rfl))).2
      (orElse_of_done (orElse_of_done helse))
  · rw [hc'] at hspot
    exact (hspot.eq_of_plain (plain_of_spaces hgap)).symm
  · rw [InstructionKind.view, InstructionKind.view, hview]

end RobotSource.Listing.Grammar
