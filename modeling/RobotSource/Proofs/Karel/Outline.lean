import RobotSource.Karel.Program
import RobotSource.Proofs.Karel.Pieces
import RobotSource.Proofs.Parsing.Outline
/-!
# Outlines of Karel programs

The nodes of a program are its declarations with the constants, types, variables and fields in them,
its statements and its expressions. Names that are declared together share their type, so nodes next
to each other may overlap; what they have in common is that each lies inside the node it belongs to,
begins with a token and ends with one (`Node.Nested`, `EndsToken`).
-/

namespace RobotSource.Parsing

/-- The node starts and ends at positions of the given kinds, and its children lie inside it and are
so as well. -/
inductive Node.Nested (starts ends : Position → Prop) : Node → Prop
  | mk {span : Span} {shown : Shown} {children : List Node}
      (start : starts span.start) (stop : ends span.stop) (start_le_stop : span.start ≤ span.stop)
      (inside : ∀ n ∈ children, span.start ≤ n.span.start ∧ n.span.stop ≤ span.stop)
      (nested : ∀ n ∈ children, n.Nested starts ends) : Nested starts ends (.mk span shown children)

namespace Node.Nested

variable {starts ends ends' : Position → Prop} {n : Node}

theorem start (h : n.Nested starts ends) : starts n.span.start := by
  cases h with
  | mk hstart _ _ _ _ => exact hstart

theorem stop (h : n.Nested starts ends) : ends n.span.stop := by
  cases h with
  | mk _ hstop _ _ _ => exact hstop

theorem start_le_stop (h : n.Nested starts ends) : n.span.start ≤ n.span.stop := by
  cases h with
  | mk _ _ hle _ _ => exact hle

theorem mono (h : n.Nested starts ends) (hends : ∀ p, ends p → ends' p) : n.Nested starts ends' := by
  induction h with
  | mk hstart hstop hle hinside _ ih => exact .mk hstart (hends _ hstop) hle hinside ih

end Node.Nested

end RobotSource.Parsing

namespace RobotSource.Karel

open Parsing List

/-! ## Starts and ends of tokens -/

/-- The position is that of a token of the text. -/
def TokenStart (text : List Char) (p : Position) : Prop :=
  ∃ before token after, pieces text = before ++ token :: after ∧ token.kind = .token ∧
    p = Position.first.afterAll (flat before)

/-- The position stands directly behind a token of the text. -/
def TokenEnd (text : List Char) (p : Position) : Prop :=
  ∃ before token after, pieces text = before ++ token :: after ∧ token.kind = .token ∧
    p = Position.first.afterAll (flat (before ++ [token]))

/-- The position stands directly behind a token of the text, and from there on only white space and
comments follow up to the next token, a directive or the end of the text. -/
def EndsToken (text : List Char) (p : Position) : Prop :=
  ∃ before token gap after, pieces text = before ++ token :: (gap ++ after) ∧ token.kind = .token ∧
    p = Position.first.afterAll (flat (before ++ [token])) ∧ (∀ l ∈ gap, l.isGap = true) ∧
    ∀ next ∈ after.head?, next.kind = .token ∨ next.kind = .directive

/-- In a text without stray characters only gaps stand between tokens. -/
theorem TokenEnd.endsToken {text : List Char} {p : Position} (h : TokenEnd text p)
    (hstray : ∀ l ∈ pieces text, l.kind ≠ .stray) : EndsToken text p := by
  obtain ⟨before, token, after, hpieces, htoken, hp⟩ := h
  refine ⟨before, token, after.takeWhile Piece.isGap, after.dropWhile Piece.isGap, ?_, htoken, hp,
    fun l hl => all_eq_true.1 all_takeWhile l hl, fun next hnext => ?_⟩
  · rw [takeWhile_append_dropWhile, hpieces]
  · have hgap : next.isGap = false := by
      have hnot := head?_dropWhile_not Piece.isGap after
      rw [Option.mem_def] at hnext
      simpa [hnext] using hnot
    have hmem : next ∈ pieces text := by
      rw [hpieces]
      refine mem_append_right _ (mem_cons_of_mem _ ?_)
      exact (dropWhile_sublist _).subset (mem_of_mem_head? hnext)
    have hkind := hstray next hmem
    revert hgap hkind
    rw [Piece.isGap]
    cases next.kind <;> simp

/-! ## Expressions -/

mutual

/-- The outline of an expression. -/
def Expr.node : Expr → Node
  | .number span _ => .mk span .any []
  | .string span _ => .mk span .any []
  | .boolean span _ => .mk span .any []
  | .identifier span _ => .mk span .any []
  | .system span _ => .mk span .any []
  | .programVariable span _ _ => .mk span .any []
  | .index span base indices => .mk span .any (base.node :: nodes indices)
  | .field span base _ => .mk span .any [base.node]
  | .call span callee arguments => .mk span .any (callee.node :: nodes arguments)
  | .unary span _ operand => .mk span .any [operand.node]
  | .binary span _ left right => .mk span .any [left.node, right.node]
  | .paren span inner => .mk span .any [inner.node]

/-- The outlines of several expressions. -/
def Expr.nodes : List Expr → List Node
  | [] => []
  | e :: es => e.node :: nodes es

end

theorem Expr.nodes_eq_flatMap (es : List Expr) : nodes es = es.flatMap fun e => [e.node] := by
  induction es with
  | nil => rfl
  | cons e es ih => rw [nodes, ih, flatMap_cons, singleton_append]

@[simp] theorem Expr.span_node (e : Expr) : e.node.span = e.span := by
  cases e <;> simp only [Expr.node, Node.span, Expr.span]

/-! ## Types -/

def ArrayBound.nodes : ArrayBound → List Node
  | .fixed size => [size.node]
  | .unspecified => []

mutual

/-- The outline of a type. -/
def DataType.node : DataType → Node
  | .scalar span _ => .mk span .any []
  | .jointPosition span _ => .mk span .any []
  | .string span length => .mk span .any [length.node]
  | .named span _ => .mk span .any []
  | .array span bounds element => .mk span .any (bounds.flatMap ArrayBound.nodes ++ [element.node])
  | .structure span fields => .mk span .any (fieldNodes fields)
  | .path span header node => .mk span .any (headerNodes header ++ [node.node])

/-- The outlines of the fields of a structure. -/
def DataType.fieldNodes : List (StructureField DataType) → List Node
  | [] => []
  | ⟨_, type, span⟩ :: fields => .mk span .any [type.node] :: fieldNodes fields

/-- The outline of the header of a path. -/
def DataType.headerNodes : Option DataType → List Node
  | none => []
  | some type => [type.node]

end

theorem DataType.fieldNodes_eq_flatMap (fields : List (StructureField DataType)) :
    fieldNodes fields = fields.flatMap fun f => [.mk f.span .any [f.type.node]] := by
  induction fields with
  | nil => rfl
  | cons f fields ih => rw [fieldNodes, ih, flatMap_cons, singleton_append]

@[simp] theorem DataType.span_node (t : DataType) : t.node.span = t.span := by
  cases t <;> simp only [DataType.node, Node.span, DataType.span]

/-! ## Statements -/

mutual

/-- The outline of a statement. -/
def Statement.node : Statement → Node
  | .assign span target value => .mk span .any [target.node, value.node]
  | .call span _ _ arguments => .mk span .any (Expr.nodes arguments)
  | .ifThen span condition thenBranch elseBranch =>
    .mk span .any (condition.node :: nodes thenBranch ++ nodes elseBranch)
  | .forLoop span _ initial _ limit body => .mk span .any (initial.node :: limit.node :: nodes body)
  | .whileLoop span condition body => .mk span .any (condition.node :: nodes body)
  | .repeatLoop span body condition => .mk span .any (nodes body ++ [condition.node])
  | .select span subject cases elseBranch =>
    .mk span .any (subject.node :: caseNodes cases ++ elseNodes elseBranch)
  | .returnFrom span value => .mk span .any (value.elim [] fun e => [e.node])
  | .goto span _ => .mk span .any []
  | .label span _ => .mk span .any []
  | .delay span time => .mk span .any [time.node]
  | .waitFor span condition => .mk span .any [condition.node]
  | .abort span => .mk span .any []
  | .pause span => .mk span .any []

/-- The outlines of several statements. -/
def Statement.nodes : List Statement → List Node
  | [] => []
  | s :: ss => s.node :: nodes ss

/-- The outlines of what the branches of a select hold. -/
def Statement.caseNodes : List (SelectCase Statement) → List Node
  | [] => []
  | ⟨values, body⟩ :: cases => Expr.nodes values ++ nodes body ++ caseNodes cases

def Statement.elseNodes : Option (List Statement) → List Node
  | none => []
  | some body => nodes body

end

theorem Statement.nodes_eq_flatMap (ss : List Statement) : nodes ss = ss.flatMap fun s => [s.node] := by
  induction ss with
  | nil => rfl
  | cons s ss ih => rw [nodes, ih, flatMap_cons, singleton_append]

theorem Statement.caseNodes_eq_flatMap (cases : List (SelectCase Statement)) :
    caseNodes cases = cases.flatMap fun k => Expr.nodes k.values ++ nodes k.body := by
  induction cases with
  | nil => rfl
  | cons k cases ih => rw [caseNodes, ih, flatMap_cons]

/-! ## Declarations and programs -/

def Constant.node (c : Constant) : Node := .mk c.span .any [c.value.node]

def TypeDeclaration.node (t : TypeDeclaration) : Node := .mk t.span .any [t.type.node]

def Variable.node (v : Variable) : Node := .mk v.span .any [v.type.node]

def DataSection.nodes : DataSection → List Node
  | .constants items => items.flatMap fun c => [c.node]
  | .types items => items.flatMap fun t => [t.node]
  | .vars items => items.flatMap fun v => [v.node]

def DataDeclaration.node (d : DataDeclaration) : Node := .mk d.span .any d.content.nodes

def Routine.nodes (r : Routine) : List Node :=
  (r.parameters.flatMap fun v => [v.node]) ++ DataType.headerNodes r.returnType ++
    (r.locals.flatMap fun d => [d.node]) ++ Statement.elseNodes r.body

def DeclarationKind.nodes : DeclarationKind → List Node
  | .data content => content.nodes
  | .routine r => r.nodes

/-- The outline of a declaration. -/
def Declaration.node (d : Declaration) : Node := .mk d.span .any d.kind.nodes

/-- The outlines of the declarations and of the main body. -/
def Program.nodes (p : Program) : List Node :=
  (p.declarations.flatMap fun d => [d.node]) ++ Statement.nodes p.main

/-- Declarations and statements lie inside the program, and every node reaches from its first token to
its last and holds all that belongs to it. -/
structure Program.SpansNested (text : List Char) (p : Program) : Prop where
  start_le_stop : p.span.start ≤ p.span.stop
  inside : ∀ n ∈ p.nodes, p.span.start ≤ n.span.start ∧ n.span.stop ≤ p.span.stop
  nested : ∀ n ∈ p.nodes, n.Nested (TokenStart text) (EndsToken text)

end RobotSource.Karel
