import RobotSource.Proofs.Karel.Grammar.Expression
/-!
# Comparing how Karel statements are read

Where the tokens of two texts are read alike, so are the statements (`Lexis.statement`). Every kind of
statement yields what is to be made of its span, and the two results are the same in the views for
spans that are (`SameMaking`).
-/

namespace RobotSource.Karel.Grammar

open Parsing Parsing.Parser Text

/-- The two statements are the same in the views. -/
def SameStatement (v v' : View) (a b : Statement) : Prop := a.view v = b.view v'

/-- What is made of a span is the same in the views. -/
def SameMaking (v v' : View) (f g : Span → Statement) : Prop :=
  ∀ s t, SameSpan v v' s t → SameStatement v v' (f s) (g t)

namespace Lexis

variable {loose tight : Cursor → Cursor → Prop} {v v' : View}

/-- Statements in a row. -/
theorem body {σ : Parser Statement} [Consumes σ] (hσ : Agrees tight tight σ (SameStatement v v')) :
    Agrees tight tight (many σ) fun ss tt => Statement.viewAll v ss = Statement.viewAll v' tt := by
  refine hσ.many.imp (fun _ _ h => h) fun ss tt h => ?_
  rw [Statement.viewAll_eq_map, Statement.viewAll_eq_map, map_eq_of_forall₂ h]

variable (L : Lexis loose tight v v')
include L

/-! ## Simple statements -/

theorem returnStatement : Agrees tight tight Grammar.returnStatement (SameMaking v v') := by
  have hvalue : Agrees tight tight
      (do Grammar.punct '('; let value ← Grammar.expression; Grammar.punct ')'; return value)
      (SameExpr v v') :=
    .pass L.punct <| L.expression.bind fun _ _ hab => .pass L.punct (.pure hab)
  refine .pass L.kw <| .bind (.maybe hvalue) fun a b hab => .pure fun s t hst => ?_
  rw [SameStatement, Statement.view, Statement.view, hst, map_eq_of_rel hab]

theorem gotoStatement : Agrees tight tight Grammar.gotoStatement (SameMaking v v') := by
  refine .pass (.orElse L.kw (.seqRight L.kw L.kw)) ?_
  refine L.ident.bind fun a b hab => .pure fun s t hst => ?_
  rw [SameStatement, Statement.view, Statement.view, hst, hab]

theorem labelStatement : Agrees tight tight Grammar.labelStatement (SameMaking v v') := by
  have hlabel : Agrees tight tight
      (do let label ← Grammar.labelMark; Grammar.blanks; return fun span => .label span label)
      (SameMaking v v') := by
    refine L.labelMark.bind fun a b hab => .pass L.gap <| .pure fun s t hst => ?_
    rw [SameStatement, Statement.view, Statement.view, hst, hab]
  simpa only [Grammar.labelStatement, Grammar.op, Grammar.labelMark, bind_assoc, pure_bind] using
    hlabel

theorem delayStatement : Agrees tight tight Grammar.delayStatement (SameMaking v v') := by
  refine .pass L.kw <| L.expression.bind fun a b hab => .pure fun s t hst => ?_
  rw [SameStatement, Statement.view, Statement.view, hst, hab.eq]

theorem waitForStatement : Agrees tight tight Grammar.waitForStatement (SameMaking v v') := by
  refine .pass L.kw <| .pass L.kw <| L.expression.bind fun a b hab =>
    .pure fun s t hst => ?_
  rw [SameStatement, Statement.view, Statement.view, hst, hab.eq]

/-! ## Calls and assignments -/

theorem arguments : Agrees tight tight Grammar.arguments
    fun as bs => as.map (Expr.view v) = bs.map (Expr.view v') := by
  have hspecifier : Agrees tight tight (Grammar.op "::" *> Grammar.sum Grammar.expression)
      (SameExpr v v') :=
    .seqRight L.op (L.sum L.expression)
  have hargument : Agrees tight tight Grammar.argument (SameExpr v v') :=
    L.expression.bind fun _ _ hab => .pass hspecifier.many (.pure hab)
  exact .pass L.punct <| (Keeps.sepBy L.punct hargument).bind fun _ _ has =>
    .pass L.op <| .pure (map_eq_of_forall₂ has)

theorem lexedName : Agrees tight tight (Grammar.lexeme Grammar.name)
    fun x y => v.name x.1 = v'.name y.1 ∧ SameSpan v v' x.2 y.2 :=
  L.lexeme L.name

theorem transferStatement :
    Agrees tight tight Grammar.transferStatement (SameMaking v v') := by
  refine .position_bind (P := fun p q => v.position p = v'.position q) L.position fun p q => ?_
  refine L.verb.bind fun a b hab => .pass L.gap ?_
  refine .bind (.maybe L.lexedName) fun file file' hfile => ?_
  refine L.arguments.bind fun es es' hes => .pure fun hpq s t hst => ?_
  have hname : SameSpan v v' ⟨p, ⟨p.line, p.column + a.length⟩⟩ ⟨q, ⟨q.line, q.column + b.length⟩⟩ := by
    rw [SameSpan, View.span, View.span, hpq, hab.1, L.column p q _ hpq]
  rw [SameStatement]
  cases hfile with
  | none => simp only [Statement.view, hst.eq, hname.eq, hab.2, hes]
  | some hfile =>
    simp only [Statement.view, hst.eq, hname.eq, hab.2, List.map_cons, Expr.view, hfile.1,
      hfile.2.eq, hes]

theorem callStatement : Agrees tight tight Grammar.callStatement (SameMaking v v') := by
  refine L.lexedName.bind fun x y hxy => .bind (.maybe L.arguments) fun as as' has =>
    .pure fun s t hst => ?_
  rw [SameStatement, Statement.view, Statement.view, hst, hxy.1, hxy.2, getD_eq_of_rel has]

theorem assignment : Agrees tight tight Grammar.assignment (SameMaking v v') := by
  refine (L.reference L.expression).bind fun a b hab => .pass L.op ?_
  refine L.expression.bind fun a' b' hab' => .pure fun s t hst => ?_
  rw [SameStatement, Statement.view, Statement.view, hst, hab.eq, hab'.eq]

/-! ## Blocks -/

section
variable {σ : Parser Statement} [Consumes σ] (hσ : Agrees tight tight σ (SameStatement v v'))
include hσ

theorem ifStatement : Agrees tight tight (Grammar.ifStatement σ) (SameMaking v v') := by
  refine .pass L.kw <| L.expression.bind fun a b hab => .pass L.kw ?_
  refine (body hσ).bind fun ss tt hthen => ?_
  refine .bind (.maybe (.seqRight L.kw (body hσ))) fun o o' ho => .pass L.kw ?_
  refine .pure fun s t hst => ?_
  rw [SameStatement, Statement.view, Statement.view, hst, hab.eq, hthen, getD_eq_of_rel ho]

theorem forStatement : Agrees tight tight (Grammar.forStatement σ) (SameMaking v v') := by
  have hdirection : Agrees tight tight
      ((Grammar.kw "DOWNTO" *> pure .down) <|> (Grammar.kw "TO" *> pure .up) : Parser LoopDirection)
      (· = ·) :=
    .orElse (.seqRight_pure L.kw _) (.seqRight_pure L.kw _)
  refine .pass L.kw <| L.ident.bind fun x y hxy => .pass L.op ?_
  refine L.expression.bind fun a b hab => hdirection.bind fun r r' hr => ?_
  refine L.expression.bind fun a' b' hab' => .pass L.kw ?_
  refine (body hσ).bind fun ss tt hbody => .pass L.kw <| .pure fun s t hst => ?_
  rw [SameStatement, Statement.view, Statement.view, hst, hxy, hab.eq, hr, hab'.eq, hbody]

theorem whileStatement : Agrees tight tight (Grammar.whileStatement σ) (SameMaking v v') := by
  refine .pass L.kw <| L.expression.bind fun a b hab => .pass L.kw ?_
  refine (body hσ).bind fun ss tt hbody => .pass L.kw <| .pure fun s t hst => ?_
  rw [SameStatement, Statement.view, Statement.view, hst, hab.eq, hbody]

theorem repeatStatement : Agrees tight tight (Grammar.repeatStatement σ) (SameMaking v v') := by
  refine .pass L.kw <| (body hσ).bind fun ss tt hbody => .pass L.kw ?_
  refine L.expression.bind fun a b hab => .pure fun s t hst => ?_
  rw [SameStatement, Statement.view, Statement.view, hst, hab.eq, hbody]

theorem selectCase : Agrees tight tight (Grammar.selectCase σ) (fun a b => a.view v = b.view v') := by
  refine .pass L.kw <| .pass L.punct ?_
  refine (Keeps.sepBy1 L.punct L.expression).bind fun as bs habs => ?_
  refine .pass L.punct <| .pass L.punct <| (body hσ).bind fun ss tt hbody => .pure ?_
  rw [SelectCase.view, SelectCase.view, map_eq_of_forall₂ habs, hbody]

end

section
variable {σ : Parser Statement} [∀ n, Orderly n true σ σ]
  (hσ : Agrees tight tight σ (SameStatement v v'))
include hσ

theorem selectStatement : Agrees tight tight (Grammar.selectStatement σ) (SameMaking v v') := by
  refine .pass L.kw <| L.expression.bind fun a b hab => .pass L.kw ?_
  refine (L.selectCase hσ).many1.bind fun ks ks' hks => ?_
  refine .bind (.maybe (.seqRight (.seqRight L.kw L.punct) (body hσ)))
    fun o o' ho => .pass L.kw <| .pure fun s t hst => ?_
  rw [SameStatement, Statement.view, Statement.view, hst, hab.eq, Statement.viewCases_eq_map,
    Statement.viewCases_eq_map, map_eq_of_forall₂ hks, Statement.viewElse_eq_map,
    Statement.viewElse_eq_map, map_eq_of_rel ho]

theorem statementOf : Agrees tight tight (Grammar.statementOf σ) (SameStatement v v') := by
  have habort : Agrees tight tight (Grammar.kw "ABORT" *> pure .abort)
      (SameMaking v v') := by
    refine .seqRight L.kw (.pure fun s t hst => ?_)
    rw [SameStatement, Statement.view, Statement.view, hst]
  have hpause : Agrees tight tight (Grammar.kw "PAUSE" *> pure .pause)
      (SameMaking v v') := by
    refine .seqRight L.kw (.pure fun s t hst => ?_)
    rw [SameStatement, Statement.view, Statement.view, hst]
  refine (L.coded L.loose_of_tight (V := SameMaking v v') ?_).bind fun x y hxy =>
    .pure (hxy.1 _ _ hxy.2)
  exact (L.ifStatement hσ).orElse <| (L.forStatement hσ).orElse <| (L.whileStatement hσ).orElse <|
    (L.repeatStatement hσ).orElse <| (L.selectStatement hσ).orElse <| L.returnStatement.orElse <|
    L.gotoStatement.orElse <| L.delayStatement.orElse <| L.waitForStatement.orElse <|
    habort.orElse <| hpause.orElse <| L.transferStatement.orElse <| L.labelStatement.orElse <|
    L.assignment.orElse L.callStatement

end

/-- **Where the tokens are read alike, so is every statement.** -/
theorem statement : Agrees tight tight Grammar.statement (SameStatement v v') :=
  .nested (s := true) (fun _ _ _ _ => inferInstance) fun _ _ h => L.statementOf h

theorem statements : Agrees tight tight Grammar.statements
    fun ss tt => ss.map (Statement.view v) = tt.map (Statement.view v') :=
  L.statement.many.imp (fun _ _ h => h) fun _ _ h => map_eq_of_forall₂ h

end Lexis

end RobotSource.Karel.Grammar
