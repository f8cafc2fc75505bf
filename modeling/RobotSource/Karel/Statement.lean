import RobotSource.Karel.Expression
/-!
# Karel statements
-/

namespace RobotSource.Karel

/-- One branch of a select, for a given notion of statement: the values it answers to, and what it
carries out. -/
structure SelectCase (σ : Type) where
  values : List Expr
  body : List σ
deriving Repr

/-- A statement. -/
inductive Statement where
  | assign (span : Span) (target value : Expr)
  /-- a routine call, `WRITE` and `READ` among them -/
  | call (span : Span) (name : String) (nameSpan : Span) (arguments : List Expr)
  | ifThen (span : Span) (condition : Expr) (thenBranch elseBranch : List Statement)
  | forLoop (span : Span) (counter : String) (initial : Expr) (direction : LoopDirection)
      (limit : Expr) (body : List Statement)
  | whileLoop (span : Span) (condition : Expr) (body : List Statement)
  | repeatLoop (span : Span) (body : List Statement) (condition : Expr)
  | select (span : Span) (subject : Expr) (cases : List (SelectCase Statement))
      (elseBranch : Option (List Statement))
  | returnFrom (span : Span) (value : Option Expr)
  | goto (span : Span) (label : String)
  | label (span : Span) (name : String)
  | delay (span : Span) (time : Expr)
  | waitFor (span : Span) (condition : Expr)
  | abort (span : Span)
  | pause (span : Span)
deriving Repr

namespace Statement

/-- The span of a statement. -/
def span : Statement → Span
  | .assign s _ _ => s
  | .call s _ _ _ => s
  | .ifThen s _ _ _ => s
  | .forLoop s _ _ _ _ _ => s
  | .whileLoop s _ _ => s
  | .repeatLoop s _ _ => s
  | .select s _ _ _ => s
  | .returnFrom s _ => s
  | .goto s _ => s
  | .label s _ => s
  | .delay s _ => s
  | .waitFor s _ => s
  | .abort s => s
  | .pause s => s

/-- The row on which the statement starts. -/
def row (s : Statement) : Nat := s.span.start.line

end Statement

end RobotSource.Karel
