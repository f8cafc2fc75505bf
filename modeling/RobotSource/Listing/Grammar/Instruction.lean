import RobotSource.Listing.Grammar.Expression
import RobotSource.Listing.Instruction
import RobotSource.Text.Digit
/-!
# Grammar of body lines

A body line is `n: instruction ;`. The alternatives of an instruction are tried in a fixed order,
which matters where one is the beginning of another: `ENDIF` and `ENDFOR` come before `END`, and a
motion before an assignment.
-/

namespace RobotSource.Listing.Grammar

open Parsing Parsing.Parser Text

/-! ## Labels, calls and actions -/

/-- A number that fits into 32 bits; a larger one ends the parse. -/
def labelNumber : Parser Nat := fun c =>
  match digits c with
  | .done ds rest =>
    if digitsValue ds < 0x100000000 then .done (digitsValue ds) rest
    else .aborted (.expecting c "number in range")
  | .failed e => .failed e
  | .aborted e => .aborted e

/-- A label number that fills the bracket up to its comment or its end. -/
def directLabel : Parser LabelTarget := do
  let n ← labelNumber
  spaces
  let _ ← lookahead (char ']' <|> char ':')
  return .direct n

/-- `LBL[n]`, `LBL[n:comment]` or `LBL[R[n]]`. -/
def labelReference : Parser LabelReference := do
  let (target, span) ← lexeme do
    let _ ← keyword "LBL"
    let _ ← char '['
    spaces
    let target ← directLabel <|> (.indirect <$> expression)
    let _ ← bracketComment
    let _ ← char ']'
    return target
  return ⟨target, span⟩

/-- `LBL[n]` or `LBL[n:comment]` as a definition. An empty comment is none. -/
def labelDefinition : Parser LabelDefinition := do
  let ((number, comment), span) ← lexeme do
    let _ ← keyword "LBL"
    let _ ← char '['
    spaces
    let number ← labelNumber
    spaces
    let comment ← bracketComment
    let _ ← char ']'
    return (number, comment)
  return ⟨number, comment.filter (· ≠ ""), span⟩

/-- A program name with its arguments, if it has any. -/
def callTarget : Parser Call := do
  let (name, nameSpan) ← spanned identifier
  spaces
  let arguments ← maybe (parens (sepBy (symbol ",") expression))
  return ⟨name, nameSpan, arguments.getD []⟩

/-- `target=value`, where a pulse width as in `DO[1]=PULSE,0.5sec` may follow. -/
def assignment : Parser Assignment := do
  let target ← primary
  let _ ← symbol "="
  let value ← expression
  let _ ← maybe (do
    let _ ← symbol ","
    let _ ← number
    spaces
    maybe (keyword "sec"))
  return ⟨target, value⟩

/-- A jump, a call or an assignment inside another instruction. -/
def action : Parser Action := do
  let (kind, span) ← spanned <|
    (.jump <$> (keyword "JMP" *> labelReference)) <|>
    (.call <$> (keyword "CALL" *> callTarget)) <|>
    (.run <$> (keyword "RUN" *> callTarget)) <|>
    (.assign <$> assignment)
  return ⟨kind, span⟩

/-- `value,action`. -/
def caseBranch : Parser CaseBranch := do
  let value ← expression
  let _ ← symbol ","
  let action ← action
  return ⟨value, action⟩

/-! ## Motion -/

/-- The letter of a motion. -/
def motionType : Parser MotionType :=
  (keyword "J" *> pure .joint) <|> (keyword "L" *> pure .linear) <|>
  (keyword "C" *> pure .circular) <|> (keyword "A" *> pure .arc)

/-- A unit of speed. -/
def speedUnit : Parser SpeedUnit :=
  (symbol "%" *> pure .percent) <|>
  (symbol "mm/sec" *> pure .millimetersPerSecond) <|>
  (symbol "cm/min" *> pure .centimetersPerMinute) <|>
  (symbol "inch/min" *> pure .inchesPerMinute) <|>
  (symbol "deg/sec" *> pure .degreesPerSecond) <|>
  (symbol "msec" *> pure .milliseconds) <|>
  (symbol "sec" *> pure .seconds)

/-- A speed: the greatest, or an amount with its unit. -/
def speed : Parser Speed :=
  (keyword "max_speed" *> pure .max) <|>
  (do let amount ← primary; let unit ← speedUnit; return .value amount unit)

/-- How the motion ends. -/
def termination : Parser Termination :=
  (keyword "FINE" *> pure .fine) <|>
  (.continuous <$> (symbol "CNT" *> primary)) <|>
  (.corner <$> (symbol "CR" *> primary))

/-- A label behind a skip keyword and a comma. -/
def skipTo (word : String) : Parser LabelReference := do
  let _ ← keyword word
  let _ ← symbol ","
  labelReference

/-- What a motion may be given behind its termination. -/
def motionOption : Parser MotionOption := do
  let (kind, span) ← spanned <|
    (.skipJump <$> skipTo "SkipJump") <|>
    (do let label ← skipTo "Skip"
        let _ ← maybe (symbol "," *> assignment)
        return .skip label) <|>
    (.acceleration <$> (symbol "ACC" *> primary)) <|>
    (.toolOffset <$> (keyword "Tool_Offset" *> maybe (symbol "," *> primary))) <|>
    (.offset <$> (keyword "Offset" *> maybe (symbol "," *> primary))) <|>
    (keyword "INC" *> pure .incremental) <|>
    (do let name ← identifier; spaces; return .flag name)
  return ⟨kind, span⟩

/-- A motion instruction. -/
def motion : Parser Motion := do
  let type ← motionType
  let destination ← primary
  let speed ← speed
  let termination ← termination
  let options ← many motionOption
  return ⟨type, destination, speed, termination, options⟩

/-! ## Instructions -/

/-- `IF condition THEN` or `IF condition,action`. -/
def conditional : Parser InstructionKind := do
  let condition ← keyword "IF" *> expression
  (keyword "THEN" *> pure (.ifThen condition)) <|>
    (.ifAction condition <$> (symbol "," *> action))

/-- `ELSE` of a block, or `ELSE,action` of a select. -/
def elseBranch : Parser InstructionKind := do
  match ← keyword "ELSE" *> maybe (symbol "," *> action) with
  | some action => return .caseElse action
  | none => return .elseBlock

/-- `FOR counter=initial TO limit`, or `DOWNTO`. -/
def forLoop : Parser InstructionKind := do
  let _ ← keyword "FOR"
  let counter ← primary
  let _ ← symbol "="
  let initial ← expression
  let direction ← (keyword "DOWNTO" *> pure .down) <|> (keyword "TO" *> pure .up)
  let limit ← expression
  return .forLoop counter initial direction limit

/-- `SELECT subject=value,action`. -/
def select : Parser InstructionKind := do
  let _ ← keyword "SELECT"
  let subject ← primary
  let _ ← symbol "="
  let branch ← caseBranch
  return .select subject branch

/-- `WAIT time(sec)`, or a wait for a condition. Whatever goes wrong in reading a time, the
condition is tried. -/
def wait : Parser InstructionKind := do
  let _ ← keyword "WAIT"
  match ← attempt (do let time ← primary; let _ ← symbol "(sec)"; return time) with
  | some time => return .delay time
  | none =>
    let condition ← expression
    let timeout ← maybe (keyword "TIMEOUT" *> symbol "," *> labelReference)
    return .waitUntil condition timeout

/-- Comments, labels, jumps, calls and the block structure. -/
def flowInstruction : Parser InstructionKind :=
  (.comment <$> (symbol "!" *> textUntil ';')) <|>
  (.remark <$> (symbol "//" *> textUntil ';')) <|>
  (.label <$> labelDefinition) <|>
  (.jump <$> (keyword "JMP" *> labelReference)) <|>
  (.call <$> (keyword "CALL" *> callTarget)) <|>
  (.run <$> (keyword "RUN" *> callTarget)) <|>
  conditional <|>
  elseBranch <|>
  (keyword "ENDIF" *> pure .endIf) <|>
  (keyword "ENDFOR" *> pure .endFor) <|>
  (keyword "END" *> pure .endProgram) <|>
  forLoop <|>
  select <|>
  (.case <$> (symbol "=" *> caseBranch))

/-- Waits, messages, motions and assignments. -/
def otherInstruction : Parser InstructionKind :=
  wait <|>
  (.skipCondition <$> (keyword "SKIP" *> keyword "CONDITION" *> expression)) <|>
  (.message <$> (keyword "MESSAGE" *> brackets (textUntil ']'))) <|>
  (keyword "PAUSE" *> pure .pause) <|>
  (keyword "ABORT" *> pure .abort) <|>
  (.motion <$> motion) <|>
  (.assign <$> assignment)

/-- Any instruction; a line that holds only its semicolon is blank. -/
def instructionKind : Parser InstructionKind :=
  (lookahead (char ';') *> pure .blank) <|> flowInstruction <|> otherInstruction

/-- One body line. -/
def instruction : Parser Instruction := do
  spaces
  let _ ← digits
  let _ ← char ':'
  spaces
  let (kind, span) ← spanned instructionKind
  spaces
  let _ ← char ';'
  spaces
  let _ ← lineEnd
  return ⟨kind, span⟩

end RobotSource.Listing.Grammar
