import RobotSource.Operator
import RobotSource.Position
/-!
# Karel expressions

An expression keeps the span it was read from. Numbers keep their source text, so that printing an
expression (`Expr.printed`) writes every literal as it was.
-/

namespace RobotSource.Karel

/-- The operators with one operand. -/
inductive UnaryOp where
  | not
  | negate
  | plus
deriving DecidableEq, Repr

/-- How an operator with one operand is named. -/
def UnaryOp.text : UnaryOp → String
  | .not => "NOT"
  | .negate => "-"
  | .plus => "+"

/-- An expression. -/
inductive Expr where
  | number (span : Span) (text : String)
  | string (span : Span) (content : String)
  | boolean (span : Span) (value : Bool)
  | identifier (span : Span) (name : String)
  /-- `$NAME` -/
  | system (span : Span) (text : String)
  /-- `[program]name`, a variable of another program -/
  | programVariable (span : Span) (program name : String)
  | index (span : Span) (base : Expr) (indices : List Expr)
  | field (span : Span) (base : Expr) (name : String)
  | call (span : Span) (callee : Expr) (arguments : List Expr)
  | unary (span : Span) (op : UnaryOp) (operand : Expr)
  | binary (span : Span) (op : BinaryOp) (left right : Expr)
  | paren (span : Span) (inner : Expr)
deriving Repr, Inhabited

namespace Expr

/-- The span of an expression. -/
def span : Expr → Span
  | .number s _ => s
  | .string s _ => s
  | .boolean s _ => s
  | .identifier s _ => s
  | .system s _ => s
  | .programVariable s _ _ => s
  | .index s _ _ => s
  | .field s _ _ => s
  | .call s _ _ => s
  | .unary s _ _ => s
  | .binary s _ _ _ => s
  | .paren s _ => s

/-- Two operands joined by an operator; the span reaches from the first to the last. -/
def join (left : Expr) (op : BinaryOp) (right : Expr) : Expr :=
  .binary (left.span.cover right.span) op left right

/-- How an operator is printed in front of its operand. -/
def signText : UnaryOp → List Char
  | .not => ['N', 'O', 'T', ' ']
  | .negate => ['-']
  | .plus => ['+']

mutual

/-- The printed form of an expression. No parentheses are added: those that were read are nodes of
their own. -/
def printed : Expr → List Char
  | .number _ text => text.toList
  | .string _ content => '\'' :: content.toList ++ ['\'']
  | .boolean _ true => ['T', 'R', 'U', 'E']
  | .boolean _ false => ['F', 'A', 'L', 'S', 'E']
  | .identifier _ name => name.toList
  | .system _ text => text.toList
  | .programVariable _ program name => '[' :: program.toList ++ ']' :: name.toList
  | .index _ base indices => printed base ++ '[' :: printedList indices ++ [']']
  | .field _ base name => printed base ++ '.' :: name.toList
  | .call _ callee arguments => printed callee ++ '(' :: printedList arguments ++ [')']
  | .unary _ op operand => signText op ++ printed operand
  | .binary _ op left right => printed left ++ ' ' :: op.text.toList ++ ' ' :: printed right
  | .paren _ inner => '(' :: printed inner ++ [')']

/-- The printed forms of several expressions, with commas between them. -/
def printedList : List Expr → List Char
  | [] => []
  | [e] => printed e
  | e :: es => printed e ++ ',' :: printedList es

end

/-- The printed form as a text. -/
def text (e : Expr) : String := String.ofList e.printed

end Expr

end RobotSource.Karel
