import RobotSource.Listing.Program
import RobotSource.Proofs.Text.Trimming
import RobotSource.Proofs.View
/-!
# Views of a listing

The views of the parts of a listing. Besides the views of all syntax trees there is `unspaced` here,
which gives up the places and the white space inside literals that hold an equals sign or a comma.
-/

namespace RobotSource

open Text

namespace Listing

/-- The marks at which the branches of a select are lined up. -/
def isSeam (c : Char) : Bool := c == '=' || c == ','

/-- A text without its white space. -/
def bare (text : List Char) : List Char := text.filter fun c => !isBlank c

section
variable {a b : List Char} {c : Char}

@[simp] theorem bare_append : bare (a ++ b) = bare a ++ bare b := List.filter_append ..

theorem bare_cons (h : isBlank c = false) : bare (c :: a) = c :: bare a :=
  List.filter_cons_of_pos (by simp [h])

theorem bare_eq_nil (h : ∀ x ∈ a, isBlank x) : bare a = [] := by
  simpa [bare] using h

@[simp] theorem bare_trimStart : bare (trimStart a) = bare a := by
  conv_rhs => rw [← List.takeWhile_append_dropWhile (p := isBlank) (l := a), bare_append]
  rw [bare_eq_nil fun c hc => List.mem_takeWhile_imp hc, List.nil_append, trimStart]

@[simp] theorem bare_trimEnd : bare (trimEnd a) = bare a := by
  obtain ⟨t, ht, hblank⟩ := exists_eq_dropEndWhile_append isBlank a
  conv_rhs => rw [ht, bare_append, bare_eq_nil hblank, List.append_nil]
  rfl

@[simp] theorem bare_trim : bare (trim a) = bare a := by
  rw [trim, bare_trimEnd, bare_trimStart]

end

end Listing

/-- Everything but the places, and but the white space inside literals that hold a seam. -/
def View.unspaced : View where
  name := id
  literal text :=
    if text.toList.any Listing.isSeam then String.ofList (Listing.bare text.toList) else text
  position _ := .first

namespace Listing

variable (v : View)

/-! ## Expressions -/

mutual

/-- A view of an expression. -/
def Expr.view : Expr → Expr
  | .number s text => .number (v.span s) (v.name text)
  | .string s content => .string (v.span s) (v.literal content)
  | .identifier s name => .identifier (v.span s) (v.name name)
  | .register s kind indices comment =>
    .register (v.span s) (v.name kind) (viewAll indices) (comment.map v.literal)
  | .system s text => .system (v.span s) (v.literal text)
  | .unary s op operand => .unary (v.span s) op operand.view
  | .binary s op left right => .binary (v.span s) op left.view right.view
  | .paren s inner => .paren (v.span s) inner.view

/-- Views of several expressions. -/
def Expr.viewAll : List Expr → List Expr
  | [] => []
  | e :: es => e.view :: viewAll es

end

theorem Expr.viewAll_eq_map (es : List Expr) : Expr.viewAll v es = es.map (Expr.view v) := by
  induction es with
  | nil => rfl
  | cons e es ih => rw [viewAll, ih, List.map_cons]

theorem Expr.span_view (e : Expr) : (e.view v).span = v.span e.span := by
  cases e <;> simp only [Expr.view, Expr.span]

theorem Expr.view_join (left : Expr) (op : BinaryOp) (right : Expr) :
    (left.join op right).view v = (left.view v).join op (right.view v) := by
  simp only [Expr.join, Expr.view, Expr.span_view]
  rfl

mutual

@[simp] theorem Expr.view_same (e : Expr) : e.view .same = e := by
  cases e <;> simp [Expr.view, Expr.view_same, Expr.viewAll_same]

theorem Expr.viewAll_same (es : List Expr) : Expr.viewAll .same es = es := by
  cases es <;> simp [Expr.viewAll, Expr.view_same, Expr.viewAll_same]

end

/-! ## Parts of instructions -/

def LabelTarget.view : LabelTarget → LabelTarget
  | .direct number => .direct number
  | .indirect value => .indirect (value.view v)

def LabelReference.view (r : LabelReference) : LabelReference :=
  ⟨r.target.view v, v.span r.span⟩

def LabelDefinition.view (d : LabelDefinition) : LabelDefinition :=
  ⟨d.number, d.comment.map v.literal, v.span d.span⟩

def Call.view (c : Call) : Call :=
  ⟨v.name c.name, v.span c.nameSpan, c.arguments.map (Expr.view v)⟩

def Assignment.view (a : Assignment) : Assignment :=
  ⟨a.target.view v, a.value.view v⟩

def ActionKind.view : ActionKind → ActionKind
  | .jump target => .jump (target.view v)
  | .call callee => .call (callee.view v)
  | .run callee => .run (callee.view v)
  | .assign target => .assign (target.view v)

def Action.view (a : Action) : Action :=
  ⟨a.kind.view v, v.span a.span⟩

def CaseBranch.view (b : CaseBranch) : CaseBranch :=
  ⟨b.value.view v, b.action.view v⟩

def Speed.view : Speed → Speed
  | .max => .max
  | .value amount unit => .value (amount.view v) unit

def Termination.view : Termination → Termination
  | .fine => .fine
  | .continuous value => .continuous (value.view v)
  | .corner value => .corner (value.view v)

def MotionOptionKind.view : MotionOptionKind → MotionOptionKind
  | .skip label => .skip (label.view v)
  | .skipJump label => .skipJump (label.view v)
  | .acceleration value => .acceleration (value.view v)
  | .offset value => .offset (value.map (Expr.view v))
  | .toolOffset value => .toolOffset (value.map (Expr.view v))
  | .incremental => .incremental
  | .flag name => .flag (v.name name)

def MotionOption.view (o : MotionOption) : MotionOption :=
  ⟨o.kind.view v, v.span o.span⟩

def Motion.view (m : Motion) : Motion :=
  ⟨m.type, m.destination.view v, m.speed.view v, m.termination.view v,
    m.options.map (MotionOption.view v)⟩

@[simp] theorem LabelReference.view_same (r : LabelReference) : r.view .same = r := by
  obtain ⟨target, span⟩ := r
  cases target <;> simp [LabelReference.view, LabelTarget.view]

@[simp] theorem LabelDefinition.view_same (d : LabelDefinition) : d.view .same = d := by
  simp [LabelDefinition.view]

@[simp] theorem Call.view_same (c : Call) : c.view .same = c := by
  simp [Call.view, map_view_same Expr.view_same]

@[simp] theorem Assignment.view_same (a : Assignment) : a.view .same = a := by
  simp [Assignment.view]

@[simp] theorem Action.view_same (a : Action) : a.view .same = a := by
  obtain ⟨kind, span⟩ := a
  cases kind <;> simp [Action.view, ActionKind.view]

@[simp] theorem CaseBranch.view_same (b : CaseBranch) : b.view .same = b := by
  simp [CaseBranch.view]

theorem MotionOption.view_same (o : MotionOption) : o.view .same = o := by
  obtain ⟨kind, span⟩ := o
  cases kind <;> simp [MotionOption.view, MotionOptionKind.view, optionMap_view_same Expr.view_same]

@[simp] theorem Motion.view_same (m : Motion) : m.view .same = m := by
  obtain ⟨type, destination, speed, termination, options⟩ := m
  cases speed <;> cases termination <;>
    simp [Motion.view, Speed.view, Termination.view, map_view_same MotionOption.view_same]

/-! ## Instructions and programs -/

def InstructionKind.view : InstructionKind → InstructionKind
  | .blank => .blank
  | .comment text => .comment (v.literal text)
  | .remark text => .remark (v.literal text)
  | .label definition => .label (definition.view v)
  | .jump target => .jump (target.view v)
  | .call callee => .call (callee.view v)
  | .run callee => .run (callee.view v)
  | .motion along => .motion (along.view v)
  | .assign target => .assign (target.view v)
  | .ifAction condition action => .ifAction (condition.view v) (action.view v)
  | .ifThen condition => .ifThen (condition.view v)
  | .elseBlock => .elseBlock
  | .endIf => .endIf
  | .forLoop counter initial direction limit =>
    .forLoop (counter.view v) (initial.view v) direction (limit.view v)
  | .endFor => .endFor
  | .select subject branch => .select (subject.view v) (branch.view v)
  | .case branch => .case (branch.view v)
  | .caseElse action => .caseElse (action.view v)
  | .delay time => .delay (time.view v)
  | .waitUntil condition timeout =>
    .waitUntil (condition.view v) (timeout.map (LabelReference.view v))
  | .skipCondition condition => .skipCondition (condition.view v)
  | .message text => .message (v.literal text)
  | .endProgram => .endProgram
  | .pause => .pause
  | .abort => .abort

def Instruction.view (i : Instruction) : Instruction :=
  ⟨i.kind.view v, v.span i.span⟩

def Program.view (p : Program) : Program :=
  { name := v.name p.name
    subType := p.subType.map v.name
    comment := p.comment.map v.literal
    instructions := p.instructions.map (Instruction.view v)
    span := v.span p.span }

theorem InstructionKind.view_same (kind : InstructionKind) : kind.view .same = kind := by
  cases kind <;> simp [InstructionKind.view, optionMap_view_same LabelReference.view_same]

theorem Instruction.view_same (i : Instruction) : i.view .same = i := by
  simp [Instruction.view, InstructionKind.view_same]

theorem Program.view_same (p : Program) : p.view .same = p := by
  simp [Program.view, map_view_same Instruction.view_same]

/-! ## Views of views -/

variable (w : View)

mutual

@[simp] theorem Expr.view_view (e : Expr) : (e.view w).view v = e.view (v.comp w) := by
  cases e <;> simp [Expr.view, Expr.view_view, Expr.viewAll_viewAll]

theorem Expr.viewAll_viewAll (es : List Expr) :
    Expr.viewAll v (Expr.viewAll w es) = Expr.viewAll (v.comp w) es := by
  cases es <;> simp [Expr.viewAll, Expr.view_view, Expr.viewAll_viewAll]

end

@[simp] theorem Expr.view_comp : Expr.view v ∘ Expr.view w = Expr.view (v.comp w) :=
  funext (Expr.view_view v w)

@[simp] theorem LabelReference.view_view (r : LabelReference) :
    (r.view w).view v = r.view (v.comp w) := by
  obtain ⟨target, span⟩ := r
  cases target <;> simp [LabelReference.view, LabelTarget.view]

@[simp] theorem LabelDefinition.view_view (d : LabelDefinition) :
    (d.view w).view v = d.view (v.comp w) := by
  simp [LabelDefinition.view]

@[simp] theorem Call.view_view (c : Call) : (c.view w).view v = c.view (v.comp w) := by
  simp [Call.view]

@[simp] theorem Assignment.view_view (a : Assignment) : (a.view w).view v = a.view (v.comp w) := by
  simp [Assignment.view]

@[simp] theorem Action.view_view (a : Action) : (a.view w).view v = a.view (v.comp w) := by
  obtain ⟨kind, span⟩ := a
  cases kind <;> simp [Action.view, ActionKind.view]

@[simp] theorem CaseBranch.view_view (b : CaseBranch) : (b.view w).view v = b.view (v.comp w) := by
  simp [CaseBranch.view]

@[simp] theorem MotionOption.view_view (o : MotionOption) :
    (o.view w).view v = o.view (v.comp w) := by
  obtain ⟨kind, span⟩ := o
  cases kind <;> simp [MotionOption.view, MotionOptionKind.view]

@[simp] theorem Motion.view_view (m : Motion) : (m.view w).view v = m.view (v.comp w) := by
  obtain ⟨type, destination, speed, termination, options⟩ := m
  cases speed <;> cases termination <;> simp [Motion.view, Speed.view, Termination.view]

theorem InstructionKind.view_view (kind : InstructionKind) :
    (kind.view w).view v = kind.view (v.comp w) := by
  have htimeout : LabelReference.view v ∘ LabelReference.view w = LabelReference.view (v.comp w) :=
    funext (LabelReference.view_view v w)
  cases kind <;> simp [InstructionKind.view, htimeout]

/-- **A view of a view is a view.** -/
theorem Instruction.view_view (i : Instruction) : (i.view w).view v = i.view (v.comp w) := by
  simp [Instruction.view, InstructionKind.view_view]

end Listing

end RobotSource
