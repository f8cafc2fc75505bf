import RobotSource.Proofs.Listing.View
/-!
# The places in an instruction

The places in an instruction are the spans of its labels, of the names of programs that it calls, and
of its expressions down to the leaves, in the order in which they are read. The spans of actions and
of motion options are not among them: these reach over the white space behind.

A view of an instruction makes of its places what it makes of spans (`InstructionKind.places_view`).
-/

namespace RobotSource

/-- The second place lies in the same row, so many columns further to the right. -/
def Position.Shifted (columns : Int) (p q : Position) : Prop :=
  q.line = p.line ∧ (q.column : Int) = p.column + columns

/-- The second span is the first one, so many columns further to the right. -/
def Span.Shifted (columns : Int) (s t : Span) : Prop :=
  s.start.Shifted columns t.start ∧ s.stop.Shifted columns t.stop

namespace Listing

/-! ## Places of the parts of an instruction -/

mutual

/-- The place of an expression, and those inside it. -/
def Expr.places : Expr → List Span
  | .number span _ => [span]
  | .string span _ => [span]
  | .identifier span _ => [span]
  | .register span _ indices _ => span :: placesAll indices
  | .system span _ => [span]
  | .unary span _ operand => span :: operand.places
  | .binary span _ left right => span :: (left.places ++ right.places)
  | .paren span inner => span :: inner.places

/-- The places of several expressions. -/
def Expr.placesAll : List Expr → List Span
  | [] => []
  | e :: es => e.places ++ placesAll es

end

theorem Expr.placesAll_eq_flatMap (es : List Expr) : Expr.placesAll es = es.flatMap Expr.places := by
  induction es with
  | nil => rfl
  | cons e es ih => rw [placesAll, ih, List.flatMap_cons]

theorem Expr.span_mem_places (e : Expr) : e.span ∈ e.places := by
  cases e <;> simp [Expr.places, Expr.span]

def LabelTarget.places : LabelTarget → List Span
  | .direct _ => []
  | .indirect value => value.places

def LabelReference.places (r : LabelReference) : List Span := r.span :: r.target.places

def Call.places (c : Call) : List Span := c.nameSpan :: c.arguments.flatMap Expr.places

def Assignment.places (a : Assignment) : List Span := a.target.places ++ a.value.places

def ActionKind.places : ActionKind → List Span
  | .jump target => target.places
  | .call callee => callee.places
  | .run callee => callee.places
  | .assign target => target.places

def CaseBranch.places (b : CaseBranch) : List Span := b.value.places ++ b.action.kind.places

def Speed.places : Speed → List Span
  | .max => []
  | .value amount _ => amount.places

def Termination.places : Termination → List Span
  | .fine => []
  | .continuous value => value.places
  | .corner value => value.places

def MotionOptionKind.places : MotionOptionKind → List Span
  | .skip label => label.places
  | .skipJump label => label.places
  | .acceleration value => value.places
  | .offset value => value.elim [] Expr.places
  | .toolOffset value => value.elim [] Expr.places
  | .incremental => []
  | .flag _ => []

def Motion.places (m : Motion) : List Span :=
  m.destination.places ++ m.speed.places ++ m.termination.places ++
    m.options.flatMap fun o => o.kind.places

/-- The places in an instruction. -/
def InstructionKind.places : InstructionKind → List Span
  | .blank => []
  | .comment _ => []
  | .remark _ => []
  | .label definition => [definition.span]
  | .jump target => target.places
  | .call callee => callee.places
  | .run callee => callee.places
  | .motion along => along.places
  | .assign target => target.places
  | .ifAction condition action => condition.places ++ action.kind.places
  | .ifThen condition => condition.places
  | .elseBlock => []
  | .endIf => []
  | .forLoop counter initial _ limit => counter.places ++ initial.places ++ limit.places
  | .endFor => []
  | .select subject branch => subject.places ++ branch.places
  | .case branch => branch.places
  | .caseElse action => action.kind.places
  | .delay time => time.places
  | .waitUntil condition timeout => condition.places ++ timeout.elim [] LabelReference.places
  | .skipCondition condition => condition.places
  | .message _ => []
  | .endProgram => []
  | .pause => []
  | .abort => []

/-! ## Places in a view -/

variable (v : View)

mutual

@[simp] theorem Expr.places_view (e : Expr) : (e.view v).places = e.places.map v.span := by
  cases e <;> simp [Expr.view, Expr.places, Expr.places_view, Expr.placesAll_viewAll]

theorem Expr.placesAll_viewAll (es : List Expr) :
    Expr.placesAll (Expr.viewAll v es) = (Expr.placesAll es).map v.span := by
  cases es <;> simp [Expr.viewAll, Expr.placesAll, Expr.places_view, Expr.placesAll_viewAll]

end

@[simp] theorem LabelReference.places_view (r : LabelReference) :
    (r.view v).places = r.places.map v.span := by
  obtain ⟨target, span⟩ := r
  cases target <;>
    simp [LabelReference.view, LabelReference.places, LabelTarget.view, LabelTarget.places]

@[simp] theorem Call.places_view (c : Call) : (c.view v).places = c.places.map v.span := by
  simp [Call.view, Call.places, List.flatMap_map, List.map_flatMap]

@[simp] theorem Assignment.places_view (a : Assignment) :
    (a.view v).places = a.places.map v.span := by
  simp [Assignment.view, Assignment.places]

@[simp] theorem ActionKind.places_view (kind : ActionKind) :
    (kind.view v).places = kind.places.map v.span := by
  cases kind <;> simp [ActionKind.view, ActionKind.places]

@[simp] theorem CaseBranch.places_view (b : CaseBranch) :
    (b.view v).places = b.places.map v.span := by
  simp [CaseBranch.view, CaseBranch.places, Action.view]

@[simp] theorem MotionOptionKind.places_view (kind : MotionOptionKind) :
    (kind.view v).places = kind.places.map v.span := by
  cases kind with
  | offset value => cases value <;> simp [MotionOptionKind.view, MotionOptionKind.places]
  | toolOffset value => cases value <;> simp [MotionOptionKind.view, MotionOptionKind.places]
  | _ => simp [MotionOptionKind.view, MotionOptionKind.places]

@[simp] theorem Motion.places_view (m : Motion) : (m.view v).places = m.places.map v.span := by
  obtain ⟨type, destination, speed, termination, options⟩ := m
  cases speed <;> cases termination <;>
    simp [Motion.view, Motion.places, Speed.view, Speed.places, Termination.view,
      Termination.places, MotionOption.view, List.flatMap_map, List.map_flatMap]

/-- **The places of a view are views of the places.** -/
theorem InstructionKind.places_view (kind : InstructionKind) :
    (kind.view v).places = kind.places.map v.span := by
  cases kind with
  | waitUntil condition timeout =>
    cases timeout <;> simp [InstructionKind.view, InstructionKind.places]
  | _ => simp [InstructionKind.view, InstructionKind.places, LabelDefinition.view, Action.view]

end Listing

end RobotSource
