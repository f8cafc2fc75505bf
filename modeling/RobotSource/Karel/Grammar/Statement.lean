import RobotSource.Karel.Statement
import RobotSource.Karel.Grammar.Expression
/-!
# Grammar of Karel statements

Statements follow one another without a separator; a line break is plain white space. The
alternatives are tried in a fixed order, the assignment and the bare call last.
-/

namespace RobotSource.Karel.Grammar

open Parsing Parsing.Parser Text

/-! ## Simple statements -/

/-- `RETURN`, with or without a value in parentheses. -/
def returnStatement : Parser (Span → Statement) := do
  kw "RETURN"
  let value ← maybe do
    punct '('
    let value ← expression
    punct ')'
    return value
  return fun span => .returnFrom span value

/-- `GOTO label` or `GO TO label`. -/
def gotoStatement : Parser (Span → Statement) := do
  kw "GOTO" <|> (kw "GO" *> kw "TO")
  let label ← ident
  return fun span => .goto span label

/-- `label::`. -/
def labelStatement : Parser (Span → Statement) := do
  let label ← name
  spaces
  op "::"
  return fun span => .label span label

/-- `DELAY time`. -/
def delayStatement : Parser (Span → Statement) := do
  kw "DELAY"
  let time ← expression
  return fun span => .delay span time

/-- `WAIT FOR condition`. -/
def waitForStatement : Parser (Span → Statement) := do
  kw "WAIT"
  kw "FOR"
  let condition ← expression
  return fun span => .waitFor span condition

/-- An argument; format specifiers `::n` behind it are read over. -/
def argument : Parser Expr := do
  let e ← expression
  let _ ← many (op "::" *> sum expression)
  return e

/-- Arguments in parentheses. -/
def arguments : Parser (List Expr) := do
  punct '('
  let es ← sepBy (punct ',') argument
  op ")"
  return es

/-- `WRITE file(arguments)` and `READ file(arguments)`. The file may be missing; a file that is
named becomes the first argument. -/
def transferStatement : Parser (Span → Statement) := do
  let start ← position
  let verb ← keyword "WRITE" <|> keyword "READ"
  let nameSpan : Span := ⟨start, ⟨start.line, start.column + verb.length⟩⟩
  blanks
  let file ← maybe (lexeme name)
  let es ← arguments
  let es := match file with
    | some (file, span) => .identifier span file :: es
    | none => es
  return fun span => .call span (upper verb) nameSpan es

/-- A routine name with its arguments, if it has any. -/
def callStatement : Parser (Span → Statement) := do
  let (callee, nameSpan) ← lexeme name
  let es ← maybe arguments
  return fun span => .call span callee nameSpan (es.getD [])

/-- `target = value`. -/
def assignment : Parser (Span → Statement) := do
  let target ← reference expression
  op "="
  let value ← expression
  return fun span => .assign span target value

/-! ## Blocks -/

section
variable (statement : Parser Statement)

/-- `IF condition THEN … ELSE … ENDIF`. -/
def ifStatement : Parser (Span → Statement) := do
  kw "IF"
  let condition ← expression
  kw "THEN"
  let thenBranch ← many statement
  let elseBranch ← maybe (kw "ELSE" *> many statement)
  kw "ENDIF"
  return fun span => .ifThen span condition thenBranch (elseBranch.getD [])

/-- `FOR counter = initial TO limit DO … ENDFOR`. -/
def forStatement : Parser (Span → Statement) := do
  kw "FOR"
  let counter ← ident
  op "="
  let initial ← expression
  let direction ← (kw "DOWNTO" *> pure .down) <|> (kw "TO" *> pure .up)
  let limit ← expression
  kw "DO"
  let body ← many statement
  kw "ENDFOR"
  return fun span => .forLoop span counter initial direction limit body

/-- `WHILE condition DO … ENDWHILE`. -/
def whileStatement : Parser (Span → Statement) := do
  kw "WHILE"
  let condition ← expression
  kw "DO"
  let body ← many statement
  kw "ENDWHILE"
  return fun span => .whileLoop span condition body

/-- `REPEAT … UNTIL condition`. -/
def repeatStatement : Parser (Span → Statement) := do
  kw "REPEAT"
  let body ← many statement
  kw "UNTIL"
  let condition ← expression
  return fun span => .repeatLoop span body condition

/-- `CASE(values): …`. -/
def selectCase : Parser (SelectCase Statement) := do
  kw "CASE"
  punct '('
  let values ← sepBy1 (punct ',') expression
  punct ')'
  punct ':'
  let body ← many statement
  return ⟨values, body⟩

/-- `SELECT subject OF … ELSE: … ENDSELECT`. -/
def selectStatement : Parser (Span → Statement) := do
  kw "SELECT"
  let subject ← expression
  kw "OF"
  let cases ← many1 (selectCase statement)
  let elseBranch ← maybe (kw "ELSE" *> punct ':' *> many statement)
  kw "ENDSELECT"
  return fun span => .select span subject cases elseBranch

/-- Any statement, in front of inner statements. -/
def statementOf : Parser Statement := do
  let (build, span) ← coded <|
    ifStatement statement <|> forStatement statement <|> whileStatement statement <|>
    repeatStatement statement <|> selectStatement statement <|> returnStatement <|>
    gotoStatement <|> delayStatement <|> waitForStatement <|>
    (kw "ABORT" *> pure .abort) <|> (kw "PAUSE" *> pure .pause) <|>
    transferStatement <|> labelStatement <|> assignment <|> callStatement
  return build span

end

/-- A statement. -/
def statement : Parser Statement := nested statementOf

/-- Any number of statements. -/
def statements : Parser (List Statement) := many statement

end RobotSource.Karel.Grammar
