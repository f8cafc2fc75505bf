import RobotSource.Karel.Expression
import RobotSource.Karel.Grammar.Token
/-!
# Grammar of Karel expressions

Operators bind, from the tightest to the loosest: `NOT`; `* / DIV MOD AND`; a sign; `+ - OR`; one
relational operator. A sign applies to the whole product behind it, and relational operators do not
chain.

The rules below `expression` receive the parser of inner expressions as an argument, since brackets
hold whole expressions again.
-/

namespace RobotSource.Karel.Grammar

open Parsing Parsing.Parser Text

/-! ## Leaves -/

/-- A number: digits with an optional fraction, or a fraction alone, then an optional exponent. -/
def number : Parser String :=
  named "number" <| recognized do
    (do let _ ← digits
        let _ ← maybe (char '.' *> takeWhile Char.isDigit)) <|>
      (do let _ ← char '.'
          let _ ← digits)
    maybe do
      let _ ← charThat "exponent" fun c => c == 'e' || c == 'E'
      let _ ← maybe (charThat "sign" fun c => c == '+' || c == '-')
      digits

/-- A string in single quotes, on one line. -/
def stringLiteral : Parser String := do
  let _ ← char '\''
  let content ← takeWhile fun c => !(c == '\'' || c == '\n')
  let _ ← char '\''
  return String.ofList content

/-- `$NAME`. -/
def systemName : Parser String :=
  recognized (char '$' *> identifier)

/-- `[program]name`. -/
def programVariable : Parser (String × String) := do
  let _ ← char '['
  let program ← identifier
  let _ ← char ']'
  let name ← identifier
  return (program, name)

/-- A truth value. -/
def boolean : Parser Bool :=
  (keyword "TRUE" *> pure true) <|> (keyword "FALSE" *> pure false) <|>
  (keyword "ON" *> pure true) <|> (keyword "OFF" *> pure false)

/-! ## Operands -/

section
variable (expr : Parser Expr)

/-- An expression in parentheses. -/
def parenthesized : Parser (Span → Expr) := do
  op "("
  let inner ← expr
  let _ ← char ')'
  return fun span => .paren span inner

/-- An operand without operators and suffixes. -/
def operand : Parser Expr := do
  let (build, span) ← lexeme <|
    parenthesized expr <|>
    (do let text ← number; return fun span => .number span text) <|>
    (do let content ← stringLiteral; return fun span => .string span content) <|>
    (do let text ← systemName; return fun span => .system span text) <|>
    (do let (program, name) ← programVariable
        return fun span => .programVariable span program name) <|>
    (do let value ← boolean; return fun span => .boolean span value) <|>
    (do let name ← name; return fun span => .identifier span name)
  return build span

/-- A subscript, a field selection or an argument list. -/
def suffix : Parser (Span → Expr → Expr) :=
  (do punct '['
      let indices ← sepBy1 (punct ',') expr
      let _ ← char ']'
      return fun span base => .index span base indices) <|>
  (do let _ ← char '.'
      let field ← name <|> systemName
      return fun span base => .field span base field) <|>
  (do punct '('
      let arguments ← sepBy (punct ',') expr
      let _ ← char ')'
      return fun span base => .call span base arguments)

/-- An operand with any number of suffixes. Each of them extends the span to its own end. -/
def reference : Parser Expr := do
  let base ← operand expr
  let suffixes ← many do
    let s ← spanned (suffix expr)
    blanks
    return s
  return suffixes.foldl (fun e (build, span) => build (e.span.cover span) e) base

/-! ## Operators -/

/-- Any number of negations before a reference. -/
def negation : Parser Expr := do
  let starts ← many (do let start ← position; kw "NOT"; return start)
  let inner ← reference expr
  return starts.foldr (fun start e => .unary ⟨start, e.span.stop⟩ .not e) inner

/-- `*`, `/`, `DIV`, `MOD` or `AND`. -/
def productOp : Parser BinaryOp :=
  (op "*" *> pure .multiply) <|> (op "/" *> pure .divide) <|>
  (kw "DIV" *> pure .integerDivide) <|> (kw "MOD" *> pure .modulo) <|> (kw "AND" *> pure .and)

/-- Products. -/
def product : Parser Expr := chainLeft (negation expr) productOp Expr.join

/-- A sign. -/
def sign : Parser UnaryOp :=
  (op "-" *> pure .negate) <|> (op "+" *> pure .plus)

/-- A product, with or without a sign before it. -/
def signed : Parser Expr := do
  let start ← position
  match ← maybe sign with
  | none => product expr
  | some sign =>
    let inner ← product expr
    return .unary ⟨start, inner.span.stop⟩ sign inner

/-- `+`, `-` or `OR`. -/
def sumOp : Parser BinaryOp :=
  (op "+" *> pure .add) <|> (op "-" *> pure .subtract) <|> (kw "OR" *> pure .or)

/-- Sums. -/
def sum : Parser Expr := chainLeft (signed expr) sumOp Expr.join

/-- A relational operator; the two-character ones come first. -/
def relationOp : Parser BinaryOp :=
  (op "<=" *> pure .lessEqual) <|> (op ">=" *> pure .greaterEqual) <|>
  (op "<>" *> pure .notEqual) <|> (op "=" *> pure .equal) <|>
  (op "<" *> pure .less) <|> (op ">" *> pure .greater)

/-- At most one relation. -/
def relation : Parser Expr := do
  let left ← sum expr
  match ← maybe relationOp with
  | none => return left
  | some rel =>
    let right ← sum expr
    return left.join rel right

end

/-- A whole expression. -/
def expression : Parser Expr := nested relation

/-- Nothing may follow an expression that stands alone. -/
def wholeExpression : Parser Expr := do
  let e ← expression
  let c ← cursor
  if c.atEnd then return e else demanded "end of expression"

end Grammar

/-- The expression that makes up a text. -/
def Expr.parse (text : String) : Except Parsing.SyntaxError Expr :=
  Grammar.wholeExpression.run text

end RobotSource.Karel
