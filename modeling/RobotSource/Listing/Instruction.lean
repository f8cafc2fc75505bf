import RobotSource.Listing.Expression
/-!
# Instructions of a pendant listing

One body line holds one instruction. An instruction is known by the row it stands on; the number
written in front of it plays no part. Conditional and select instructions wrap an `Action`, the
jump, call or assignment that is carried out when the condition holds.
-/

namespace RobotSource.Listing

/-! ## Labels and calls -/

/-- `LBL[n:comment]` as an instruction of its own. -/
structure LabelDefinition where
  number : Nat
  comment : Option String
  span : Span
deriving DecidableEq, Repr

/-- Where a jump leads: a label number, or an expression that gives it when the program runs. -/
inductive LabelTarget where
  | direct (number : Nat)
  | indirect (value : Expr)
deriving Repr

/-- `LBL[n]` or `LBL[R[n]]` in a jump, skip or timeout. -/
structure LabelReference where
  target : LabelTarget
  span : Span
deriving Repr

/-- The label number, where the reference states it. -/
def LabelReference.number? (r : LabelReference) : Option Nat :=
  match r.target with
  | .direct n => some n
  | .indirect _ => none

/-- A program called or started by name. -/
structure Call where
  name : String
  nameSpan : Span
  arguments : List Expr
deriving Repr

/-- `target = value`. -/
structure Assignment where
  target : Expr
  value : Expr
deriving Repr

/-! ## Actions and branches -/

/-- What a conditional or a select branch carries out. -/
inductive ActionKind where
  | jump (label : LabelReference)
  | call (call : Call)
  | run (call : Call)
  | assign (assignment : Assignment)
deriving Repr

/-- An action and its span. -/
structure Action where
  kind : ActionKind
  span : Span
deriving Repr

/-- One branch of a select: the value compared with, and the action. -/
structure CaseBranch where
  value : Expr
  action : Action
deriving Repr

/-! ## Motion -/

/-- How the robot moves to its destination. -/
inductive MotionType where
  | joint
  | linear
  | circular
  | arc
deriving DecidableEq, Repr

/-- The letter of a motion type. -/
def MotionType.letter : MotionType → String
  | .joint => "J"
  | .linear => "L"
  | .circular => "C"
  | .arc => "A"

/-- The units of speed. -/
inductive SpeedUnit where
  | percent
  | millimetersPerSecond
  | centimetersPerMinute
  | inchesPerMinute
  | degreesPerSecond
  | seconds
  | milliseconds
deriving DecidableEq, Repr

/-- How a unit of speed is written. -/
def SpeedUnit.text : SpeedUnit → String
  | .percent => "%"
  | .millimetersPerSecond => "mm/sec"
  | .centimetersPerMinute => "cm/min"
  | .inchesPerMinute => "inch/min"
  | .degreesPerSecond => "deg/sec"
  | .seconds => "sec"
  | .milliseconds => "msec"

/-- The speed of a motion. -/
inductive Speed where
  | max
  | value (amount : Expr) (unit : SpeedUnit)
deriving Repr

/-- How a motion ends at its destination. -/
inductive Termination where
  | fine
  | continuous (value : Expr)
  | corner (value : Expr)
deriving Repr

/-- What may be added to a motion. -/
inductive MotionOptionKind where
  | skip (label : LabelReference)
  | skipJump (label : LabelReference)
  | acceleration (value : Expr)
  | offset (value : Option Expr)
  | toolOffset (value : Option Expr)
  | incremental
  | flag (name : String)
deriving Repr

/-- A motion option and its span. -/
structure MotionOption where
  kind : MotionOptionKind
  span : Span
deriving Repr

/-- A motion instruction. -/
structure Motion where
  type : MotionType
  destination : Expr
  speed : Speed
  termination : Termination
  options : List MotionOption
deriving Repr

/-! ## Instructions -/

/-- The instructions. -/
inductive InstructionKind where
  | blank
  /-- `!text` -/
  | comment (text : String)
  /-- `//text`, a line that has been taken out -/
  | remark (text : String)
  | label (definition : LabelDefinition)
  | jump (label : LabelReference)
  | call (call : Call)
  | run (call : Call)
  | motion (motion : Motion)
  | assign (assignment : Assignment)
  /-- `IF condition,action` -/
  | ifAction (condition : Expr) (action : Action)
  /-- `IF condition THEN` -/
  | ifThen (condition : Expr)
  | elseBlock
  | endIf
  | forLoop (counter initial : Expr) (direction : LoopDirection) (limit : Expr)
  | endFor
  | select (subject : Expr) (branch : CaseBranch)
  /-- `=value,action` behind a select -/
  | case (branch : CaseBranch)
  /-- `ELSE,action` behind a select -/
  | caseElse (action : Action)
  /-- `WAIT 1.00(sec)` -/
  | delay (time : Expr)
  | waitUntil (condition : Expr) (timeout : Option LabelReference)
  | skipCondition (condition : Expr)
  | message (text : String)
  | endProgram
  | pause
  | abort
deriving Repr

/-- An instruction and its span. -/
structure Instruction where
  kind : InstructionKind
  span : Span
deriving Repr

namespace Instruction

/-- The row on which the instruction stands. -/
def row (i : Instruction) : Nat := i.span.start.line

/-- The action wrapped by a conditional or a select branch. -/
def action? (i : Instruction) : Option Action :=
  match i.kind with
  | .ifAction _ action => some action
  | .select _ branch => some branch.action
  | .case branch => some branch.action
  | .caseElse action => some action
  | _ => none

/-- The program that the instruction calls or starts, also from within a wrapper. -/
def call? (i : Instruction) : Option Call :=
  match i.kind with
  | .call call => some call
  | .run call => some call
  | _ =>
    match i.action? with
    | some ⟨.call call, _⟩ => some call
    | some ⟨.run call, _⟩ => some call
    | _ => none

/-- The label that a motion option refers to. -/
def optionLabel? (o : MotionOption) : Option LabelReference :=
  match o.kind with
  | .skip label => some label
  | .skipJump label => some label
  | _ => none

/-- Every label that the instruction refers to. -/
def labelReferences (i : Instruction) : List LabelReference :=
  match i.kind with
  | .jump label => [label]
  | .motion motion => motion.options.filterMap optionLabel?
  | .waitUntil _ (some label) => [label]
  | _ =>
    match i.action? with
    | some ⟨.jump label, _⟩ => [label]
    | _ => []

end Instruction

end RobotSource.Listing
