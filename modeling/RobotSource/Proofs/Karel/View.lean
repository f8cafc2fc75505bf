import RobotSource.Karel.Program
import RobotSource.Proofs.View
/-!
# Views of a Karel program

The views of expressions, types, statements, declarations and whole programs.
-/

namespace RobotSource.Karel

variable (v : View)

/-! ## Expressions -/

mutual

/-- A view of an expression. -/
def Expr.view : Expr → Expr
  | .number s text => .number (v.span s) (v.name text)
  | .string s content => .string (v.span s) (v.literal content)
  | .boolean s value => .boolean (v.span s) value
  | .identifier s name => .identifier (v.span s) (v.name name)
  | .system s text => .system (v.span s) (v.name text)
  | .programVariable s program name => .programVariable (v.span s) (v.name program) (v.name name)
  | .index s base indices => .index (v.span s) base.view (viewAll indices)
  | .field s base name => .field (v.span s) base.view (v.name name)
  | .call s callee arguments => .call (v.span s) callee.view (viewAll arguments)
  | .unary s op operand => .unary (v.span s) op operand.view
  | .binary s op left right => .binary (v.span s) op left.view right.view
  | .paren s inner => .paren (v.span s) inner.view

/-- Views of several expressions. -/
def Expr.viewAll : List Expr → List Expr
  | [] => []
  | e :: es => e.view :: viewAll es

end

theorem Expr.viewAll_eq_map (es : List Expr) : Expr.viewAll v es = es.map (Expr.view v) := by
  induction es with
  | nil => rfl
  | cons e es ih => rw [viewAll, ih, List.map_cons]

theorem Expr.span_view (e : Expr) : (e.view v).span = v.span e.span := by
  cases e <;> simp only [Expr.view, Expr.span]

theorem Expr.view_join (left : Expr) (op : BinaryOp) (right : Expr) :
    (left.join op right).view v = (left.view v).join op (right.view v) := by
  simp only [Expr.join, Expr.view, Expr.span_view]
  rfl

mutual

@[simp] theorem Expr.view_same (e : Expr) : e.view .same = e := by
  cases e <;> simp [Expr.view, Expr.view_same, Expr.viewAll_same]

@[simp] theorem Expr.viewAll_same (es : List Expr) : Expr.viewAll .same es = es := by
  cases es <;> simp [Expr.viewAll, Expr.view_same, Expr.viewAll_same]

end

/-! ## Types -/

def ArrayBound.view : ArrayBound → ArrayBound
  | .fixed size => .fixed (size.view v)
  | .unspecified => .unspecified

mutual

/-- A view of a type. -/
def DataType.view : DataType → DataType
  | .scalar s kind => .scalar (v.span s) kind
  | .jointPosition s axes => .jointPosition (v.span s) axes
  | .string s length => .string (v.span s) (length.view v)
  | .named s name => .named (v.span s) (v.name name)
  | .array s bounds element => .array (v.span s) (bounds.map (ArrayBound.view v)) element.view
  | .structure s fields => .structure (v.span s) (viewFields fields)
  | .path s header node => .path (v.span s) (viewHeader header) node.view

def DataType.viewFields : List (StructureField DataType) → List (StructureField DataType)
  | [] => []
  | ⟨name, type, s⟩ :: fields => ⟨v.name name, type.view, v.span s⟩ :: viewFields fields

def DataType.viewHeader : Option DataType → Option DataType
  | none => none
  | some type => some type.view

end

def StructureField.view (f : StructureField DataType) : StructureField DataType :=
  ⟨v.name f.name, f.type.view v, v.span f.span⟩

theorem DataType.viewFields_eq_map (fields : List (StructureField DataType)) :
    DataType.viewFields v fields = fields.map (StructureField.view v) := by
  induction fields with
  | nil => rfl
  | cons f fields ih =>
    rw [viewFields, ih, List.map_cons]
    rfl

theorem DataType.viewHeader_eq_map (header : Option DataType) :
    DataType.viewHeader v header = header.map (DataType.view v) := by
  cases header <;> rfl

theorem DataType.span_view (t : DataType) : (t.view v).span = v.span t.span := by
  cases t <;> simp only [DataType.view, DataType.span]

@[simp] theorem ArrayBound.view_same (b : ArrayBound) : b.view .same = b := by
  cases b <;> simp [ArrayBound.view]

mutual

@[simp] theorem DataType.view_same (t : DataType) : t.view .same = t := by
  cases t <;> simp [DataType.view, DataType.view_same, DataType.viewFields_same,
    DataType.viewHeader_same, map_view_same ArrayBound.view_same]

theorem DataType.viewFields_same (fields : List (StructureField DataType)) :
    DataType.viewFields .same fields = fields := by
  cases fields <;> simp [DataType.viewFields, DataType.view_same, DataType.viewFields_same]

theorem DataType.viewHeader_same (header : Option DataType) :
    DataType.viewHeader .same header = header := by
  cases header <;> simp [DataType.viewHeader, DataType.view_same]

end

/-! ## Statements -/

mutual

/-- A view of a statement. -/
def Statement.view : Statement → Statement
  | .assign s target value => .assign (v.span s) (target.view v) (value.view v)
  | .call s name nameSpan arguments =>
    .call (v.span s) (v.name name) (v.span nameSpan) (arguments.map (Expr.view v))
  | .ifThen s condition thenBranch elseBranch =>
    .ifThen (v.span s) (condition.view v) (viewAll thenBranch) (viewAll elseBranch)
  | .forLoop s counter initial direction limit body =>
    .forLoop (v.span s) (v.name counter) (initial.view v) direction (limit.view v) (viewAll body)
  | .whileLoop s condition body => .whileLoop (v.span s) (condition.view v) (viewAll body)
  | .repeatLoop s body condition => .repeatLoop (v.span s) (viewAll body) (condition.view v)
  | .select s subject cases elseBranch =>
    .select (v.span s) (subject.view v) (viewCases cases) (viewElse elseBranch)
  | .returnFrom s value => .returnFrom (v.span s) (value.map (Expr.view v))
  | .goto s destination => .goto (v.span s) (v.name destination)
  | .label s name => .label (v.span s) (v.name name)
  | .delay s time => .delay (v.span s) (time.view v)
  | .waitFor s condition => .waitFor (v.span s) (condition.view v)
  | .abort s => .abort (v.span s)
  | .pause s => .pause (v.span s)

/-- Views of several statements. -/
def Statement.viewAll : List Statement → List Statement
  | [] => []
  | s :: ss => s.view :: viewAll ss

def Statement.viewCases : List (SelectCase Statement) → List (SelectCase Statement)
  | [] => []
  | ⟨values, body⟩ :: cases => ⟨values.map (Expr.view v), viewAll body⟩ :: viewCases cases

def Statement.viewElse : Option (List Statement) → Option (List Statement)
  | none => none
  | some body => some (viewAll body)

end

def SelectCase.view (k : SelectCase Statement) : SelectCase Statement :=
  ⟨k.values.map (Expr.view v), Statement.viewAll v k.body⟩

theorem Statement.viewAll_eq_map (ss : List Statement) :
    Statement.viewAll v ss = ss.map (Statement.view v) := by
  induction ss with
  | nil => rfl
  | cons s ss ih => rw [viewAll, ih, List.map_cons]

theorem Statement.viewCases_eq_map (cases : List (SelectCase Statement)) :
    Statement.viewCases v cases = cases.map (SelectCase.view v) := by
  induction cases with
  | nil => rfl
  | cons k cases ih =>
    rw [viewCases, ih, List.map_cons]
    rfl

theorem Statement.viewElse_eq_map (body : Option (List Statement)) :
    Statement.viewElse v body = body.map (Statement.viewAll v) := by
  cases body <;> rfl

mutual

@[simp] theorem Statement.view_same (s : Statement) : s.view .same = s := by
  cases s <;> simp [Statement.view, Statement.viewAll_same, Statement.viewCases_same,
    Statement.viewElse_same, map_view_same Expr.view_same, optionMap_view_same Expr.view_same]

theorem Statement.viewAll_same (ss : List Statement) : Statement.viewAll .same ss = ss := by
  cases ss <;> simp [Statement.viewAll, Statement.view_same, Statement.viewAll_same]

theorem Statement.viewCases_same (cases : List (SelectCase Statement)) :
    Statement.viewCases .same cases = cases := by
  cases cases <;> simp [Statement.viewCases, Statement.viewAll_same, Statement.viewCases_same,
    map_view_same Expr.view_same]

theorem Statement.viewElse_same (body : Option (List Statement)) :
    Statement.viewElse .same body = body := by
  cases body <;> simp [Statement.viewElse, Statement.viewAll_same]

end

/-! ## Declarations -/

def Constant.view (c : Constant) : Constant := ⟨v.name c.name, c.value.view v, v.span c.span⟩

def TypeDeclaration.view (t : TypeDeclaration) : TypeDeclaration :=
  ⟨v.name t.name, t.owner.map v.name, t.type.view v, v.span t.span⟩

def Variable.view (x : Variable) : Variable :=
  ⟨v.name x.name, x.storage.map v.name, x.type.view v, v.span x.span⟩

def DataSection.view : DataSection → DataSection
  | .constants items => .constants (items.map (Constant.view v))
  | .types items => .types (items.map (TypeDeclaration.view v))
  | .vars items => .vars (items.map (Variable.view v))

def DataDeclaration.view (d : DataDeclaration) : DataDeclaration :=
  ⟨d.content.view v, v.span d.span⟩

def Routine.view (r : Routine) : Routine :=
  { name := v.name r.name
    nameSpan := v.span r.nameSpan
    parameters := r.parameters.map (Variable.view v)
    returnType := r.returnType.map (DataType.view v)
    owner := r.owner.map v.name
    locals := r.locals.map (DataDeclaration.view v)
    body := r.body.map (List.map (Statement.view v)) }

def DeclarationKind.view : DeclarationKind → DeclarationKind
  | .data content => .data (content.view v)
  | .routine r => .routine (r.view v)

def Declaration.view (d : Declaration) : Declaration := ⟨d.kind.view v, v.span d.span⟩

def Directive.view (d : Directive) : Directive :=
  ⟨v.name d.name, d.value.map v.literal, v.span d.span⟩

/-- A view of a program. -/
def Program.view (p : Program) : Program :=
  { name := v.name p.name
    header := v.literal p.header
    directives := p.directives.map (Directive.view v)
    declarations := p.declarations.map (Declaration.view v)
    main := p.main.map (Statement.view v)
    span := v.span p.span }

theorem Constant.view_same (c : Constant) : c.view .same = c := by simp [Constant.view]

theorem TypeDeclaration.view_same (t : TypeDeclaration) : t.view .same = t := by
  simp [TypeDeclaration.view]

theorem Variable.view_same (x : Variable) : x.view .same = x := by simp [Variable.view]

@[simp] theorem DataSection.view_same (s : DataSection) : s.view .same = s := by
  cases s <;> simp [DataSection.view, map_view_same Constant.view_same,
    map_view_same TypeDeclaration.view_same, map_view_same Variable.view_same]

theorem DataDeclaration.view_same (d : DataDeclaration) : d.view .same = d := by
  simp [DataDeclaration.view]

theorem Routine.view_same (r : Routine) : r.view .same = r := by
  simp [Routine.view, map_view_same Variable.view_same, map_view_same DataDeclaration.view_same,
    optionMap_view_same DataType.view_same, optionMap_view_same (map_view_same Statement.view_same)]

theorem Declaration.view_same (d : Declaration) : d.view .same = d := by
  obtain ⟨kind, span⟩ := d
  cases kind <;> simp [Declaration.view, DeclarationKind.view, Routine.view_same]

theorem Directive.view_same (d : Directive) : d.view .same = d := by simp [Directive.view]

theorem Program.view_same (p : Program) : p.view .same = p := by
  simp [Program.view, map_view_same Directive.view_same, map_view_same Declaration.view_same,
    map_view_same Statement.view_same]

end RobotSource.Karel
