import RobotSource.Proofs.Listing.Grammar.Progress
import RobotSource.Proofs.Listing.View
import RobotSource.Proofs.Parsing.Repetition
/-!
# Comparing how expressions are read

Two texts are read as the same expression, up to a view of each side, if their tokens are read
alike. What has to be known of the tokens is collected in `Lexis`; the rules of the grammar are then
gone through once (`Lexis.expression`, `Lexis.primary`).

Two relations between cursors take part. `tight` holds where a token may begin, `loose` behind a
token, where spaces and tabs may still have to be skipped.
-/

namespace RobotSource.Listing.Grammar

open Parsing Parsing.Parser Text

/-- The symbols of the grammar. -/
abbrev symbols : List String :=
  ["(", ")", ",", "!", "-", "*", "/", "+", "<=", ">=", "<>", "=", "<", ">", "%", "mm/sec", "cm/min",
    "inch/min", "deg/sec", "msec", "sec", "CNT", "CR", "ACC", "(sec)"]

/-- The keywords of the grammar. -/
abbrev keywords : List String :=
  ["NOT", "DIV", "MOD", "AND", "OR", "LBL", "JMP", "CALL", "RUN", "sec", "J", "L", "C", "A",
    "max_speed", "FINE", "SkipJump", "Skip", "Tool_Offset", "Offset", "INC", "IF", "THEN", "ELSE",
    "ENDIF", "ENDFOR", "END", "FOR", "DOWNTO", "TO", "SELECT", "WAIT", "TIMEOUT", "SKIP",
    "CONDITION", "PAUSE", "ABORT"]

/-- A comment, if there is one, with the bracket that closes it. -/
def closedComment : Parser (Option String) := do
  let comment ← bracketComment
  let _ ← char ']'
  return comment

/-- A comment behind its colon, with the bracket that closes it. -/
def commentLiteral : Parser String := do
  let _ ← char ':'
  let taken ← takeWhile fun x => !(x == ']' || isBreak x)
  let _ ← char ']'
  return String.ofList (trim taken)

/-- The two comments are the same in the views, and neither is empty without the other. -/
def SameComment (v v' : View) (a b : Option String) : Prop :=
  a.map v.literal = b.map v'.literal ∧ (a = some "" ↔ b = some "")

/-- The tokens of two texts are read alike. -/
structure Lexis (loose tight : Cursor → Cursor → Prop) (v v' : View) : Prop where
  loose_of_tight : ∀ c d, tight c d → loose c d
  position : ∀ c d, loose c d → v.position c.position = v'.position d.position
  spaces : Keeps loose tight (fun _ _ => True) spaces spaces
  symbol : ∀ s ∈ symbols, Keeps tight tight (fun _ _ => True) (symbol s) (symbol s)
  keyword : ∀ w ∈ keywords, Keeps tight tight (fun _ _ => True) (keyword w) (keyword w)
  char : ∀ x ∈ ['[', ']', ')'], Keeps loose loose (fun _ _ => True) (char x) (char x)
  identifier : Keeps tight loose (fun a b => v.name a = v'.name b) identifier identifier
  number : Keeps tight loose (fun a b => v.name a = v'.name b) number number
  string : Keeps tight loose (fun a b => v.literal a = v'.literal b) stringLiteral stringLiteral
  system : Keeps tight loose (fun a b => v.literal a = v'.literal b) systemVariable systemVariable
  comment : Keeps loose loose (SameComment v v') closedComment closedComment
  labelNumber : Keeps tight loose (· = ·) labelNumber labelNumber
  labelEnd : Keeps tight (fun _ _ => True) (fun _ _ => True)
    (Parsing.char ']' <|> Parsing.char ':') (Parsing.char ']' <|> Parsing.char ':')

theorem bind_closedComment {α : Type} (f : Option String → Parser α) :
    (closedComment >>= f) =
      bracketComment >>= fun comment => char ']' >>= fun _ => f comment := by
  simp only [closedComment, bind_assoc, pure_bind]

/-- The numbers of labels are read alike if their digits are. -/
theorem rel_labelNumber {T : Cursor → Cursor → Prop} {c d : Cursor}
    (h : (digits c).Rel T (· = ·) (digits d)) : (labelNumber c).Rel T (· = ·) (labelNumber d) := by
  rw [labelNumber, labelNumber]
  generalize digits c = o, digits d = o' at h
  cases h with
  | done heq hrest =>
    simp only [heq]
    split
    · exact .done rfl hrest
    · exact .aborted
  | failed => exact .failed
  | aborted => exact .aborted

/-- The two expressions are the same in the views. -/
def SameExpr (v v' : View) (a b : Expr) : Prop := a.view v = b.view v'

/-- The two ways to build an expression from its span are the same in the views. -/
def SameBuild (v v' : View) (f g : Span → Expr) : Prop :=
  ∀ s t, v.span s = v'.span t → SameExpr v v' (f s) (g t)

section
variable {v v' : View}

theorem SameExpr.join {a a' b b' : Expr} {op op' : BinaryOp} (ha : SameExpr v v' a a')
    (hop : op = op') (hb : SameExpr v v' b b') : SameExpr v v' (a.join op b) (a'.join op' b') := by
  rw [SameExpr, Expr.view_join, Expr.view_join, ha, hb, hop]

/-- Signs in front of an expression. -/
theorem SameExpr.signs {signs signs' : List (Position × UnaryOp)} {e e' : Expr}
    (hsigns : List.Forall₂ (fun x y => v.position x.1 = v'.position y.1 ∧ x.2 = y.2) signs signs')
    (he : SameExpr v v' e e') :
    SameExpr v v' (signs.foldr (fun (start, op) e => .unary ⟨start, e.span.stop⟩ op e) e)
      (signs'.foldr (fun (start, op) e => .unary ⟨start, e.span.stop⟩ op e) e') := by
  induction hsigns with
  | nil => exact he
  | cons hxy _ ih =>
    have hstop := congrArg (fun e => e.span.stop) ih
    simp only [Expr.span_view, View.span] at hstop
    simp only [List.foldr_cons, SameExpr, Expr.view, View.span, hxy.1, hxy.2, hstop]
    rw [ih]

/-- Operands with operators between them. -/
theorem SameExpr.chainLeft {R : Cursor → Cursor → Prop} {p : Parser Expr} {o : Parser BinaryOp}
    [Consumes p] [Consumes o] (ho : Agrees R R o (· = ·)) (h : Agrees R R p (SameExpr v v')) :
    Agrees R R (Parser.chainLeft p o Expr.join) (SameExpr v v') :=
  .chainLeft ho h fun _ _ ha _ _ hop _ _ hb => ha.join hop hb

end

namespace Lexis

variable {loose tight : Cursor → Cursor → Prop} {v v' : View}

/-- A token that stands for itself. -/
theorem leaf {p : Parser String} {f f' : String → String} (build : Span → String → Expr)
    (h : Agrees tight loose p fun a b => f a = f' b)
    (hbuild : ∀ s t a b, v.span s = v'.span t → f a = f' b →
      SameExpr v v' (build s a) (build t b)) :
    Agrees tight loose (do let text ← p; return fun span => build span text)
      (SameBuild v v') :=
  h.bind fun a b hab => .pure fun s t hst => hbuild s t a b hst hab

variable (L : Lexis loose tight v v')
include L

/-! ## Tokens -/

theorem kw {w : String} [hw : Among w [keywords]] :
    Agrees tight tight (Parsing.keyword w) fun _ _ => True := L.keyword w hw.mem_row

theorem sym {s : String} [hs : Among s [symbols]] :
    Agrees tight tight (Parsing.symbol s) fun _ _ => True := L.symbol s hs.mem_row

theorem opening : Agrees loose loose (Parsing.char '[') fun _ _ => True :=
  L.char '[' (by decide)

theorem gap : Keeps loose tight (fun _ _ => True) Parsing.spaces Parsing.spaces := L.spaces

theorem place : ∀ c d, tight c d → v.position c.position = v'.position d.position :=
  fun c d hcd => L.position c d (L.loose_of_tight c d hcd)

theorem bind_comment {α β : Type} {V : α → β → Prop} {U : Cursor → Cursor → Prop}
    {f : Option String → Parser α} {g : Option String → Parser β}
    (h : ∀ a b, SameComment v v' a b → Keeps loose U V (f a) (g b)) :
    Keeps tight U V (bracketComment >>= fun comment => Parsing.char ']' >>= fun _ => f comment)
      (bracketComment >>= fun comment => Parsing.char ']' >>= fun _ => g comment) := by
  rw [← bind_closedComment, ← bind_closedComment]
  exact (L.comment.of_imp L.loose_of_tight).bind h

section
variable {α β : Type} {V : α → β → Prop} {p : Parser α} {q : Parser β}

/-- What is read has the same span in the views. -/
theorem spanned {T : Cursor → Cursor → Prop} (h : Keeps tight T V p q)
    (hT : ∀ c d, T c d → v.position c.position = v'.position d.position) :
    Keeps tight T (fun x y => V x.1 y.1 ∧ v.span x.2 = v'.span y.2) (Parser.spanned p)
      (Parser.spanned q) := by
  refine (h.spanned (P := fun a b => v.position a = v'.position b) L.place hT).imp (fun _ _ h => h)
    fun x y hxy => ⟨hxy.1, ?_⟩
  rw [View.span, View.span, hxy.2.1, hxy.2.2]

/-- A token with its span, and the spaces behind it. -/
theorem lexeme (h : Keeps tight loose V p q) :
    Keeps tight tight (fun x y => V x.1 y.1 ∧ v.span x.2 = v'.span y.2)
      (Grammar.lexeme p) (Grammar.lexeme q) :=
  (L.spanned h L.position).bind fun _ _ hxy => .pass L.gap (.pure hxy)

end

/-! ## Operands -/

section
variable {e : Parser Expr} (he : Agrees tight tight e (SameExpr v v'))
include he

theorem parenthesized : Agrees tight loose (Grammar.parenthesized e) (SameBuild v v') := by
  refine .pass L.sym <| he.bind fun a b hab => ?_
  have hclose := (L.char ')' (by decide)).of_imp L.loose_of_tight
  refine .pass hclose <| .pure fun s t hst => ?_
  simp only [SameExpr, Expr.view, hst]
  rw [hab]

variable [∀ n, Orderly n true e e]

theorem indices : Agrees tight tight (sepBy (Parsing.symbol ",") e)
    (List.Forall₂ (SameExpr v v')) :=
  .sepBy L.sym he

theorem register : Agrees tight loose (Grammar.register e) (SameBuild v v') := by
  refine L.identifier.bind fun kind kind' hkind => .pass L.opening <| .pass L.gap ?_
  refine (L.indices he).bind fun is is' his => ?_
  refine L.bind_comment fun c c' hc => .pure fun s t hst => ?_
  simp only [SameExpr, Expr.view, hst, hkind, hc.1, Expr.viewAll_eq_map, map_eq_of_forall₂ his]

theorem operand : Agrees tight tight (Grammar.operand e) (SameExpr v v') := by
  refine (L.lexeme (V := SameBuild v v') ?_).bind fun x y hxy => .pure (hxy.1 _ _ hxy.2)
  refine (L.parenthesized he).orElse ?_
  refine (leaf .number L.number fun s t a b hst hab => ?_).orElse ?_
  · simp only [SameExpr, Expr.view, hst, hab]
  refine (leaf .string L.string fun s t a b hst hab => ?_).orElse ?_
  · simp only [SameExpr, Expr.view, hst, hab]
  refine (leaf .system L.system fun s t a b hst hab => ?_).orElse ?_
  · simp only [SameExpr, Expr.view, hst, hab]
  refine (L.register he).orElse ?_
  refine leaf .identifier L.identifier fun s t a b hst hab => ?_
  simp only [SameExpr, Expr.view, hst, hab]

end

/-! ## Operators -/

theorem unaryOp : Agrees tight tight Grammar.unaryOp (· = ·) :=
  .orElse (.seqRight_pure L.kw _) <| .orElse (.seqRight_pure L.sym _) (.seqRight_pure L.sym _)

theorem multiplicativeOp : Agrees tight tight Grammar.multiplicativeOp (· = ·) :=
  .orElse (.seqRight_pure L.sym _) <| .orElse (.seqRight_pure L.sym _) <|
  .orElse (.seqRight_pure L.kw _) (.seqRight_pure L.kw _)

theorem additiveOp : Agrees tight tight Grammar.additiveOp (· = ·) :=
  .orElse (.seqRight_pure L.sym _) (.seqRight_pure L.sym _)

theorem comparisonOp : Agrees tight tight Grammar.comparisonOp (· = ·) :=
  .orElse (.seqRight_pure L.sym _) <| .orElse (.seqRight_pure L.sym _) <|
  .orElse (.seqRight_pure L.sym _) <| .orElse (.seqRight_pure L.sym _) <|
  .orElse (.seqRight_pure L.sym _) (.seqRight_pure L.sym _)

section
variable {e : Parser Expr} [∀ n, Orderly n true e e] (he : Agrees tight tight e (SameExpr v v'))
include he

theorem signed : Agrees tight tight (Grammar.signed e) (SameExpr v v') := by
  have hsign : Agrees tight tight
      (do let start ← Parser.position; let op ← Grammar.unaryOp; return (start, op))
      fun x y => v.position x.1 = v'.position y.1 ∧ x.2 = y.2 :=
    (Keeps.position (P := fun s t => v.position s = v'.position t) L.place).bind
      fun s t hst => L.unaryOp.bind fun op op' hop => .pure ⟨hst, hop⟩
  refine hsign.many.bind fun signs signs' hsigns => ?_
  exact (L.operand he).bind fun a b hab => .pure (.signs hsigns hab)

theorem additive : Agrees tight tight (Grammar.additive e) (SameExpr v v') :=
  SameExpr.chainLeft L.additiveOp (SameExpr.chainLeft L.multiplicativeOp (L.signed he))

theorem comparison : Agrees tight tight (Grammar.comparison e) (SameExpr v v') := by
  refine (L.additive he).bind fun a b hab => ?_
  refine (Keeps.maybe L.comparisonOp).bind fun op op' hop => ?_
  cases hop with
  | none => exact .pure hab
  | some hop => exact (L.additive he).bind fun a' b' hab' => .pure (hab.join hop hab')

theorem disjunction : Agrees tight tight (Grammar.disjunction e) (SameExpr v v') :=
  SameExpr.chainLeft (.seqRight_pure L.kw _) <|
    SameExpr.chainLeft (.seqRight_pure L.kw _) (L.comparison he)

end

/-! ## Whole expressions -/

/-- **Where the tokens are read alike, so is every expression.** -/
theorem expression : Agrees tight tight Grammar.expression (SameExpr v v') :=
  .nested (s := true) (fun _ _ _ _ => inferInstance) fun _ _ h => L.disjunction h

theorem primary : Agrees tight tight Grammar.primary (SameExpr v v') :=
  L.operand L.expression

end Lexis

end RobotSource.Listing.Grammar
