import RobotSource.Proofs.Listing.Grammar.Expression
/-!
# Comparing how instructions are read

The rules of instructions are gone through as those of expressions are: where the tokens of two texts
are read alike, so are labels, calls, actions and branches (`Lexis.action`, `Lexis.caseBranch`). The
texts of comments and messages are no tokens; how they are read is asked for besides (`Wording`), and
then all instructions are read alike (`Wording.flowInstruction`, `Wording.otherInstruction`).
-/

namespace RobotSource.Listing.Grammar

open Parsing Parsing.Parser

variable {loose tight : Cursor → Cursor → Prop} {v v' : View}

namespace Lexis

/-- An empty comment counts as none on both sides. -/
theorem map_filter_comment {a b : Option String} (h : SameComment v v' a b) :
    (a.filter (· ≠ "")).map v.literal = (b.filter (· ≠ "")).map v'.literal := by
  obtain ⟨hmap, hempty⟩ := h
  cases a with
  | none => cases b with
    | none => rfl
    | some b => cases hmap
  | some a => cases b with
    | none => cases hmap
    | some b =>
      simp only [Option.some.injEq] at hempty
      by_cases ha : a = ""
      · simp [Option.filter, ha, hempty.1 ha]
      · simpa [Option.filter, ha, mt hempty.2 ha] using hmap

variable (L : Lexis loose tight v v')
include L

/-! ## Labels and calls -/

theorem directLabel : Agrees tight tight Grammar.directLabel
    fun a b => a.view v = b.view v' := by
  refine L.labelNumber.bind fun k k' hk => .pass L.gap ?_
  refine .pass L.labelEnd.lookahead <| .pure ?_
  rw [hk, LabelTarget.view, LabelTarget.view]

theorem labelReference : Agrees tight tight Grammar.labelReference
    fun a b => a.view v = b.view v' := by
  refine .bind (L.lexeme (V := fun a b : LabelTarget => a.view v = b.view v') ?_)
    fun x y hxy => .pure ?_
  · refine .pass L.kw <| .pass (L.opening.of_imp L.loose_of_tight) <| .pass L.gap ?_
    refine (L.directLabel.orElse (.map_view L.expression)).bind fun a b hab => ?_
    exact L.bind_comment fun _ _ _ => .pure hab
  · rw [LabelReference.view, LabelReference.view, hxy.1, hxy.2]

theorem labelDefinition : Agrees tight tight Grammar.labelDefinition
    fun a b => a.view v = b.view v' := by
  refine .bind (L.lexeme (V := fun x y => x.1 = y.1 ∧ SameComment v v' x.2 y.2) ?_)
    fun x y hxy => .pure ?_
  · refine .pass L.kw <| .pass (L.opening.of_imp L.loose_of_tight) <| .pass L.gap ?_
    refine L.labelNumber.bind fun k k' hk => .pass L.gap ?_
    exact L.bind_comment fun c c' hc => .pure ⟨hk, hc⟩
  · simp only [LabelDefinition.view, hxy.1.1, hxy.2, map_filter_comment hxy.1.2]

theorem callTarget : Agrees tight tight Grammar.callTarget
    fun a b => a.view v = b.view v' := by
  refine (L.spanned L.identifier L.position).bind fun x y hxy => .pass L.gap ?_
  have harguments : Agrees tight tight (parens (sepBy (Parsing.symbol ",") Grammar.expression))
      fun es es' => es.map (Expr.view v) = es'.map (Expr.view v') :=
    .pass L.sym <| (L.indices L.expression).bind fun es es' hes => .pass L.sym <|
      .pure (map_eq_of_forall₂ hes)
  refine (Keeps.maybe harguments).bind fun es es' hes => .pure ?_
  simp only [Call.view, hxy.1, hxy.2, getD_eq_of_rel hes]

/-! ## Actions and branches -/

theorem assignment : Agrees tight tight Grammar.assignment
    fun a b => a.view v = b.view v' := by
  refine L.primary.bind fun a b hab => .pass L.sym ?_
  refine L.expression.bind fun e e' he => .pass (.maybe <| .pass L.sym <|
    .pass L.number <| .pass L.gap <| .maybe L.kw) <| .pure ?_
  simp only [Assignment.view]
  rw [hab, he]

theorem action : Agrees tight tight Grammar.action fun a b => a.view v = b.view v' := by
  refine .bind (L.spanned (V := fun a b : ActionKind => a.view v = b.view v') ?_ L.place)
    fun x y hxy => .pure ?_
  · refine .orElse (.map_view (.seqRight L.kw L.labelReference)) ?_
    refine .orElse (.map_view (.seqRight L.kw L.callTarget)) ?_
    exact .orElse (.map_view (.seqRight L.kw L.callTarget)) (.map_view L.assignment)
  · simp only [Action.view, hxy.1, hxy.2]

theorem caseBranch : Agrees tight tight Grammar.caseBranch
    fun a b => a.view v = b.view v' := by
  refine L.expression.bind fun a b hab => .pass L.sym ?_
  refine L.action.bind fun x y hxy => .pure ?_
  simp only [CaseBranch.view, hxy]
  rw [hab]

theorem select : Agrees tight tight Grammar.select fun a b => a.view v = b.view v' := by
  refine .pass L.kw <| L.primary.bind fun a b hab => .pass L.sym ?_
  refine L.caseBranch.bind fun x y hxy => .pure ?_
  simp only [InstructionKind.view, hxy]
  rw [hab]

/-! ## Motion -/

theorem motionType : Agrees tight tight Grammar.motionType (· = ·) :=
  .orElse (.seqRight_pure L.kw _) <| .orElse (.seqRight_pure L.kw _) <|
  .orElse (.seqRight_pure L.kw _) (.seqRight_pure L.kw _)

theorem speedUnit : Agrees tight tight Grammar.speedUnit (· = ·) :=
  .orElse (.seqRight_pure L.sym _) <| .orElse (.seqRight_pure L.sym _) <|
  .orElse (.seqRight_pure L.sym _) <| .orElse (.seqRight_pure L.sym _) <|
  .orElse (.seqRight_pure L.sym _) <| .orElse (.seqRight_pure L.sym _) (.seqRight_pure L.sym _)

theorem speed : Agrees tight tight Grammar.speed fun a b => a.view v = b.view v' := by
  refine .orElse (.seqRight L.kw (.pure rfl)) ?_
  refine L.primary.bind fun a b hab => L.speedUnit.bind fun u u' hu => .pure ?_
  rw [Speed.view, Speed.view, hab, hu]

theorem termination : Agrees tight tight Grammar.termination
    fun a b => a.view v = b.view v' :=
  .orElse (.seqRight L.kw (.pure rfl)) <| .orElse (.map_view (.seqRight L.sym L.primary))
    (.map_view (.seqRight L.sym L.primary))

theorem skipTo {word : String} [Among word [keywords]] :
    Agrees tight tight (Grammar.skipTo word) fun a b => a.view v = b.view v' :=
  .pass L.kw <| .pass L.sym L.labelReference

/-- A keyword with an operand behind a comma, which may be missing. -/
theorem operandOption {word : String} [Among word [keywords]] :
    Agrees tight tight
      (Parsing.keyword word *> maybe (Parsing.symbol "," *> Grammar.primary))
      fun a b => a.map (Expr.view v) = b.map (Expr.view v') := by
  have hoperand : Agrees tight tight (Parsing.symbol "," *> Grammar.primary) (SameExpr v v') :=
    .seqRight L.sym L.primary
  exact .seqRight L.kw <| (Keeps.maybe hoperand).imp
    (fun _ _ h => h) fun _ _ => map_eq_of_rel

theorem motionOption : Agrees tight tight Grammar.motionOption
    fun a b => a.view v = b.view v' := by
  refine .bind (L.spanned (V := fun a b : MotionOptionKind => a.view v = b.view v') ?_ L.place)
    fun x y hxy => .pure ?_
  · refine .orElse (.map_view L.skipTo) ?_
    refine .orElse (L.skipTo.bind fun a b hab => ?_) ?_
    · refine .pass (.maybe <| .seqRight L.sym L.assignment) <| .pure ?_
      rw [MotionOptionKind.view, MotionOptionKind.view, hab]
    refine .orElse (.map_view (.seqRight L.sym L.primary)) ?_
    refine .orElse (.map_view L.operandOption) <| .orElse (.map_view L.operandOption) ?_
    refine .orElse (.seqRight L.kw (.pure rfl)) ?_
    refine L.identifier.bind fun a b hab => .pass L.gap <| .pure ?_
    rw [MotionOptionKind.view, MotionOptionKind.view, hab]
  · simp only [MotionOption.view, hxy.1, hxy.2]

theorem motion : Agrees tight tight Grammar.motion fun a b => a.view v = b.view v' := by
  refine L.motionType.bind fun type type' htype => L.primary.bind fun a b hab => ?_
  refine L.speed.bind fun s s' hs => L.termination.bind fun t t' ht => ?_
  refine L.motionOption.many.bind fun os os' hos => .pure ?_
  simp only [Motion.view, htype, hs, ht, map_eq_of_forall₂ hos]
  rw [hab]

/-! ## Instructions of several parts -/

theorem conditional : Agrees tight tight Grammar.conditional
    fun a b => a.view v = b.view v' := by
  refine .bind (.seqRight L.kw L.expression) fun a b hab => ?_
  refine .orElse (.seqRight L.kw (.pure ?_))
    (.map (.seqRight L.sym L.action) fun x y hxy => ?_)
  · rw [InstructionKind.view, InstructionKind.view, hab]
  · rw [InstructionKind.view, InstructionKind.view, hab, hxy]

theorem elseBranch : Agrees tight tight Grammar.elseBranch
    fun a b => a.view v = b.view v' := by
  refine .bind (.seqRight L.kw <| .maybe <| .seqRight L.sym L.action)
    fun a b hab => ?_
  cases hab with
  | none => exact .pure rfl
  | some hab => exact .pure (by rw [InstructionKind.view, InstructionKind.view, hab])

theorem forLoop : Agrees tight tight Grammar.forLoop fun a b => a.view v = b.view v' := by
  refine .pass L.kw <| L.primary.bind fun a b hab => .pass L.sym ?_
  refine L.expression.bind fun i i' hi => ?_
  refine .bind (.orElse (.seqRight_pure L.kw _) (.seqRight_pure L.kw _)) fun x x' hx => ?_
  refine L.expression.bind fun l l' hl => .pure ?_
  rw [InstructionKind.view, InstructionKind.view, hab, hi, hx, hl]

theorem wait : Agrees tight tight Grammar.wait fun a b => a.view v = b.view v' := by
  have htime : Agrees tight tight
      (do let time ← Grammar.primary; let _ ← Parsing.symbol "(sec)"; return time)
      (SameExpr v v') :=
    L.primary.bind fun a b hab => .pass L.sym (.pure hab)
  refine .pass L.kw <| (htime.attempt fun _ _ h => h).bind fun t t' ht => ?_
  cases ht with
  | some hab =>
    refine .pure ?_
    rw [InstructionKind.view, InstructionKind.view, hab]
  | none =>
    refine L.expression.bind fun a b hab => ?_
    refine .bind (.maybe <| .seqRight (.seqRight L.kw L.sym)
      L.labelReference) fun l l' hl => .pure ?_
    rw [InstructionKind.view, InstructionKind.view, hab, map_eq_of_rel hl]

end Lexis

/-! ## All instructions -/

/-- Besides the tokens, the texts of comments and messages are read alike. -/
structure Wording (loose tight : Cursor → Cursor → Prop) (v v' : View) : Prop
    extends Lexis loose tight v v' where
  note : Keeps tight loose (fun a b => v.literal a = v'.literal b)
    (Parsing.symbol "!" *> textUntil ';') (Parsing.symbol "!" *> textUntil ';')
  remark : Keeps tight loose (fun a b => v.literal a = v'.literal b)
    (Parsing.symbol "//" *> textUntil ';') (Parsing.symbol "//" *> textUntil ';')
  message : Keeps tight loose (fun a b => v.literal a = v'.literal b)
    (Parsing.keyword "MESSAGE" *> brackets (textUntil ']'))
    (Parsing.keyword "MESSAGE" *> brackets (textUntil ']'))

namespace Wording

variable (L : Wording loose tight v v')
include L

theorem loosen {α β : Type} {V : α → β → Prop} {p : Parser α} {q : Parser β}
    (h : Keeps tight tight V p q) : Keeps tight loose V p q :=
  h.imp L.loose_of_tight fun _ _ h => h

theorem flowInstruction : Agrees tight loose Grammar.flowInstruction
    fun a b => a.view v = b.view v' := by
  refine .orElse (.map_view L.note) <| .orElse (.map_view L.remark) <| L.loosen ?_
  refine .orElse (.map_view L.labelDefinition) ?_
  refine .orElse (.map_view (.seqRight L.kw L.labelReference)) ?_
  refine .orElse (.map_view (.seqRight L.kw L.callTarget)) ?_
  refine .orElse (.map_view (.seqRight L.kw L.callTarget)) ?_
  refine L.conditional.orElse <| L.elseBranch.orElse <| .orElse (.seqRight L.kw (.pure rfl)) ?_
  refine .orElse (.seqRight L.kw (.pure rfl)) <| .orElse (.seqRight L.kw (.pure rfl)) ?_
  exact L.forLoop.orElse <| L.select.orElse <| .map_view (.seqRight L.sym L.caseBranch)

theorem otherInstruction : Agrees tight loose Grammar.otherInstruction
    fun a b => a.view v = b.view v' := by
  have hskip : Agrees tight tight
      (Parsing.keyword "SKIP" *> Parsing.keyword "CONDITION" *> Grammar.expression)
      (SameExpr v v') :=
    .seqRight (.seqRight L.kw L.kw) L.expression
  refine .orElse (L.loosen L.wait) <| .orElse (L.loosen (.map_view hskip)) ?_
  refine .orElse (.map_view L.message) <| L.loosen ?_
  refine .orElse (.seqRight L.kw (.pure rfl)) <| .orElse (.seqRight L.kw (.pure rfl)) ?_
  exact .orElse (.map_view L.motion) (.map_view L.assignment)

end Wording

end RobotSource.Listing.Grammar
