import RobotSource.Listing.Program
import RobotSource.Proofs.Parsing.Outline
/-!
# Outlines of listings

The nodes of an instruction are its expressions, labels, actions and motion options, and the name of
a program that it calls. Numbers, names and system variables stand in the text as they are stored,
strings between their quotes, and a register begins with its name and bracket.

`Program.SpansExact` puts together what the spans of a listing are good for: an instruction is known
by its row, and a place in that row by the node whose span holds it.
-/

namespace RobotSource.Listing

open Parsing

/-! ## Expressions -/

mutual

/-- The outline of an expression. -/
def Expr.node : Expr → Node
  | .number span text => .mk span (.exactly text) []
  | .string span content => .mk span (.quoted content) []
  | .identifier span name => .mk span (.exactly name) []
  | .register span kind indices _ => .mk span (.bracketed kind) (nodes indices)
  | .system span text => .mk span (.exactly text) []
  | .unary span _ operand => .mk span .any [operand.node]
  | .binary span _ left right => .mk span .any [left.node, right.node]
  | .paren span inner => .mk span .any [inner.node]

/-- The outlines of several expressions. -/
def Expr.nodes : List Expr → List Node
  | [] => []
  | e :: es => e.node :: nodes es

end

theorem Expr.nodes_eq_flatMap (es : List Expr) : nodes es = es.flatMap fun e => [e.node] := by
  induction es with
  | nil => rfl
  | cons e es ih => rw [nodes, ih, List.flatMap_cons, List.singleton_append]

@[simp] theorem Expr.span_node (e : Expr) : e.node.span = e.span := by
  cases e <;> simp only [Expr.node, Node.span, Expr.span]

/-! ## Parts of instructions -/

def LabelTarget.nodes : LabelTarget → List Node
  | .direct _ => []
  | .indirect value => [value.node]

def LabelReference.node (r : LabelReference) : Node := .mk r.span .any r.target.nodes

def LabelDefinition.node (d : LabelDefinition) : Node := .mk d.span .any []

/-- The name of the program, which stands in the text as it is, and the arguments. -/
def Call.nodes (c : Call) : List Node :=
  .mk c.nameSpan (.exactly c.name) [] :: Expr.nodes c.arguments

def Assignment.nodes (a : Assignment) : List Node := [a.target.node, a.value.node]

def ActionKind.nodes : ActionKind → List Node
  | .jump target => [target.node]
  | .call callee => callee.nodes
  | .run callee => callee.nodes
  | .assign target => target.nodes

def Action.node (a : Action) : Node := .mk a.span .any a.kind.nodes

def CaseBranch.nodes (b : CaseBranch) : List Node := [b.value.node, b.action.node]

def Speed.nodes : Speed → List Node
  | .max => []
  | .value amount _ => [amount.node]

def Termination.nodes : Termination → List Node
  | .fine => []
  | .continuous value => [value.node]
  | .corner value => [value.node]

def MotionOptionKind.nodes : MotionOptionKind → List Node
  | .skip label => [label.node]
  | .skipJump label => [label.node]
  | .acceleration value => [value.node]
  | .offset value => value.elim [] fun e => [e.node]
  | .toolOffset value => value.elim [] fun e => [e.node]
  | .incremental => []
  | .flag _ => []

def MotionOption.node (o : MotionOption) : Node := .mk o.span .any o.kind.nodes

def Motion.nodes (m : Motion) : List Node :=
  m.destination.node :: m.speed.nodes ++ m.termination.nodes ++ m.options.flatMap fun o => [o.node]

/-! ## Instructions and programs -/

def InstructionKind.nodes : InstructionKind → List Node
  | .blank => []
  | .comment _ => []
  | .remark _ => []
  | .label definition => [definition.node]
  | .jump target => [target.node]
  | .call callee => callee.nodes
  | .run callee => callee.nodes
  | .motion m => m.nodes
  | .assign target => target.nodes
  | .ifAction condition action => [condition.node, action.node]
  | .ifThen condition => [condition.node]
  | .elseBlock => []
  | .endIf => []
  | .forLoop counter initial _ limit => [counter.node, initial.node, limit.node]
  | .endFor => []
  | .select subject branch => subject.node :: branch.nodes
  | .case branch => branch.nodes
  | .caseElse action => [action.node]
  | .delay time => [time.node]
  | .waitUntil condition timeout => condition.node :: timeout.elim [] fun target => [target.node]
  | .skipCondition condition => [condition.node]
  | .message _ => []
  | .endProgram => []
  | .pause => []
  | .abort => []

/-- The outline of an instruction. -/
def Instruction.node (i : Instruction) : Node := .mk i.span .any i.kind.nodes

/-- The instructions of a program stand in rows of their own, one below the other, and inside the
program; in its row each of them is exact down to the leaves. -/
structure Program.SpansExact (text : List Char) (p : Program) : Prop where
  start_le_stop : p.span.start ≤ p.span.stop
  inside : ∀ i ∈ p.instructions, p.span.start ≤ i.span.start ∧ i.span.stop ≤ p.span.stop
  rows : p.instructions.Pairwise fun i j => i.row < j.row
  exact : ∀ i ∈ p.instructions, i.node.Exact text i.row

end RobotSource.Listing
