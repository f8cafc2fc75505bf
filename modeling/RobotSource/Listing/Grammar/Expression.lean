import RobotSource.Listing.Expression
import RobotSource.Parsing.Token
/-!
# Grammar of listing expressions

Operators bind, from the loosest to the tightest: `OR`, `AND`, one comparison, `+ -`,
`* / DIV MOD`, then the signs and `NOT`. Everything but the comparison joins from the left; a
comparison does not chain. Each rule takes the spaces and tabs behind it and never a line break.

The rules below `expression` receive the parser of inner expressions as an argument, since brackets
hold whole expressions again.
-/

namespace RobotSource.Listing.Grammar

open Parsing Parsing.Parser Text

/-! ## Leaves -/

/-- `p` with its span, which leaves out the spaces and tabs taken behind it. -/
def lexeme {α : Type} (p : Parser α) : Parser (α × Span) := do
  let a ← spanned p
  spaces
  return a

/-- The text up to `stop` or the end of the line, trimmed. -/
def textUntil (stop : Char) : Parser String := do
  let taken ← takeWhile fun c => !(c == stop || isBreak c)
  return String.ofList (trim taken)

/-- The comment behind a colon, up to the closing bracket. -/
def bracketComment : Parser (Option String) :=
  maybe (char ':' *> textUntil ']')

/-- A number: digits with an optional fraction, or a fraction alone. -/
def number : Parser String :=
  recognized <|
    (do let _ ← digits
        let _ ← maybe (char '.' *> takeWhile Char.isDigit)) <|>
    (do let _ ← char '.'
        let _ ← digits)

/-- The text between two of the same quotes, on one line. -/
def quoted (quote : Char) : Parser String := do
  let _ ← char quote
  let content ← takeWhile fun c => !(c == quote || c == '\n')
  let _ ← char quote
  return String.ofList content

/-- A string in either kind of quotes. -/
def stringLiteral : Parser String := quoted '\'' <|> quoted '"'

/-- One step into a system variable: a field or a subscript. -/
def systemStep : Parser Unit :=
  (do let _ ← char '.'
      let _ ← maybe (char '$')
      let _ ← identifier) <|>
  (do let _ ← char '['
      let _ ← takeWhile fun c => !(c == ']' || c == '\n')
      let _ ← char ']')

/-- `$NAME`, `$NAME[i].$FIELD` or `$[PROG]VAR.FIELD`. -/
def systemVariable : Parser String :=
  recognized do
    let _ ← char '$'
    let _ ← maybe (do let _ ← char '['; let _ ← identifier; char ']')
    let _ ← identifier
    many systemStep

/-! ## Operands -/

section
variable (expr : Parser Expr)

/-- A register with its indices and comment. -/
def register : Parser (Span → Expr) := do
  let kind ← identifier
  let _ ← char '['
  spaces
  let indices ← sepBy (symbol ",") expr
  let comment ← bracketComment
  let _ ← char ']'
  return fun span => .register span kind indices comment

/-- An expression in parentheses. -/
def parenthesized : Parser (Span → Expr) := do
  let _ ← symbol "("
  let inner ← expr
  let _ ← char ')'
  return fun span => .paren span inner

/-- An operand without operators, in front of inner expressions. -/
def operand : Parser Expr := do
  let (build, span) ← lexeme <|
    parenthesized expr <|>
    (do let text ← number; return fun span => .number span text) <|>
    (do let content ← stringLiteral; return fun span => .string span content) <|>
    (do let text ← systemVariable; return fun span => .system span text) <|>
    register expr <|>
    (do let name ← identifier; return fun span => .identifier span name)
  return build span

/-! ## Operators -/

/-- A sign or a negation. -/
def unaryOp : Parser UnaryOp :=
  (keyword "NOT" *> pure .not) <|> (symbol "!" *> pure .not) <|> (symbol "-" *> pure .negate)

/-- Any number of signs and negations before an operand. -/
def signed : Parser Expr := do
  let signs ← many (do let start ← position; let op ← unaryOp; return (start, op))
  let inner ← operand expr
  return signs.foldr (fun (start, op) e => .unary ⟨start, e.span.stop⟩ op e) inner

/-- `*`, `/`, `DIV` or `MOD`. -/
def multiplicativeOp : Parser BinaryOp :=
  (symbol "*" *> pure .multiply) <|> (symbol "/" *> pure .divide) <|>
  (keyword "DIV" *> pure .integerDivide) <|> (keyword "MOD" *> pure .modulo)

/-- `+` or `-`. -/
def additiveOp : Parser BinaryOp :=
  (symbol "+" *> pure .add) <|> (symbol "-" *> pure .subtract)

/-- A comparison; the two-character ones come first. -/
def comparisonOp : Parser BinaryOp :=
  (symbol "<=" *> pure .lessEqual) <|> (symbol ">=" *> pure .greaterEqual) <|>
  (symbol "<>" *> pure .notEqual) <|> (symbol "=" *> pure .equal) <|>
  (symbol "<" *> pure .less) <|> (symbol ">" *> pure .greater)

/-- Products and quotients. -/
def multiplicative : Parser Expr := chainLeft (signed expr) multiplicativeOp Expr.join

/-- Sums and differences. -/
def additive : Parser Expr := chainLeft (multiplicative expr) additiveOp Expr.join

/-- At most one comparison. -/
def comparison : Parser Expr := do
  let left ← additive expr
  match ← maybe comparisonOp with
  | none => return left
  | some op =>
    let right ← additive expr
    return left.join op right

/-- Conjunctions. -/
def conjunction : Parser Expr :=
  chainLeft (comparison expr) (keyword "AND" *> pure .and) Expr.join

/-- Disjunctions, the loosest level. -/
def disjunction : Parser Expr :=
  chainLeft (conjunction expr) (keyword "OR" *> pure .or) Expr.join

end

/-- A whole expression. -/
def expression : Parser Expr := nested disjunction

/-- An operand without operators. It is also read where only a data reference may stand, as the
target of an assignment or the subject of a select. -/
def primary : Parser Expr := operand expression

end RobotSource.Listing.Grammar
