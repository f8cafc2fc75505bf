/-!
# Binary operators

Both languages have the same binary operators with the same spelling. They differ in how tightly the
operators bind, which is a matter of each grammar.
-/

namespace RobotSource

/-- The binary operators. -/
inductive BinaryOp where
  | or
  | and
  | equal
  | notEqual
  | less
  | lessEqual
  | greater
  | greaterEqual
  | add
  | subtract
  | multiply
  | divide
  | integerDivide
  | modulo
deriving DecidableEq, Repr

/-- How an operator is written. -/
def BinaryOp.text : BinaryOp → String
  | .or => "OR"
  | .and => "AND"
  | .equal => "="
  | .notEqual => "<>"
  | .less => "<"
  | .lessEqual => "<="
  | .greater => ">"
  | .greaterEqual => ">="
  | .add => "+"
  | .subtract => "-"
  | .multiply => "*"
  | .divide => "/"
  | .integerDivide => "DIV"
  | .modulo => "MOD"

/-- Which way a counted loop runs. -/
inductive LoopDirection where
  | up
  | down
deriving DecidableEq, Repr

end RobotSource
