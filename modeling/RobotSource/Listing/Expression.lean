import RobotSource.Operator
import RobotSource.Position
/-!
# Expressions of a pendant listing

Registers such as `R[1]` or `DI[4:sensor]` are the data of a teach pendant program. An expression
keeps the span it was read from; numbers and system variables keep their source text.
-/

namespace RobotSource.Listing

/-- The operators with one operand. -/
inductive UnaryOp where
  | not
  | negate
deriving DecidableEq, Repr

/-- How an operator with one operand is written. -/
def UnaryOp.text : UnaryOp → String
  | .not => "NOT"
  | .negate => "-"

/-- An expression. -/
inductive Expr where
  | number (span : Span) (text : String)
  | string (span : Span) (content : String)
  | identifier (span : Span) (name : String)
  /-- `R[1]`, `PR[2,3]`, `DI[4:sensor]`: a kind of register, its indices and a comment -/
  | register (span : Span) (kind : String) (indices : List Expr) (comment : Option String)
  /-- `$SPEED`, `$[PROG]VAR.FIELD`: the whole reference as written -/
  | system (span : Span) (text : String)
  | unary (span : Span) (op : UnaryOp) (operand : Expr)
  | binary (span : Span) (op : BinaryOp) (left right : Expr)
  | paren (span : Span) (inner : Expr)
deriving Repr, Inhabited

/-- The span of an expression. -/
def Expr.span : Expr → Span
  | .number s _ => s
  | .string s _ => s
  | .identifier s _ => s
  | .register s _ _ _ => s
  | .system s _ => s
  | .unary s _ _ => s
  | .binary s _ _ _ => s
  | .paren s _ => s

/-- Two operands joined by an operator; the span reaches from the first to the last. -/
def Expr.join (left : Expr) (op : BinaryOp) (right : Expr) : Expr :=
  .binary (left.span.cover right.span) op left right

end RobotSource.Listing
