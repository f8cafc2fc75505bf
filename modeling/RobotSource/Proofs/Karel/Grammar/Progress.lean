import RobotSource.Karel.Grammar.Program
import RobotSource.Proofs.Parsing.Progress
/-!
# Progress in the grammar of Karel
-/

namespace RobotSource.Karel.Grammar

open Parsing Parsing.Parser Text

variable {n : Nat} {s : Bool} {α : Type} {p q : Parser α}

/-! ## Tokens -/

instance : Orderly n false blanks blanks := .of_drop fun _ => .inl ⟨_, _, rfl, nofun⟩

instance [h : Orderly n s p q] : Orderly n s (coded p) (coded q) :=
  h.lift (fun c => fun
    | .done a r => .done (a, Span.mk c.position (endOfCode c.position (c.upTo r))) r
    | .failed e => .failed e
    | .aborted e => .aborted e) fun _ o h => by cases o <;> exact h

instance [Orderly n true p q] : Orderly n true (lexeme p) (lexeme q) := by
  unfold lexeme; infer_instance
instance {x : Char} : Orderly n true (punct x) (punct x) := by unfold punct; infer_instance
instance {word : String} [Worded word] : Orderly n true (kw word) (kw word) := by
  unfold kw; infer_instance
instance {sym : String} [Worded sym] : Orderly n true (op sym) (op sym) := by
  unfold op; infer_instance

instance : Orderly n true name name := by
  refine Orderly.lift (p := identifier) (q := identifier) (s := true) inferInstance (fun c => fun
    | .done word rest =>
      if isReserved word then .failed (.expecting c "identifier") else .done word rest
    | .failed e => .failed e
    | .aborted e => .aborted e) fun c o h => ?_
  cases o with
  | done word rest =>
    dsimp only
    split
    · exact .expecting c _
    · exact h
  | _ => exact h

instance : Orderly n true ident ident := by unfold ident; infer_instance

/-! ## Expressions -/

instance : Orderly n true number number := by unfold number; infer_instance
instance : Orderly n true stringLiteral stringLiteral := by unfold stringLiteral; infer_instance
instance : Orderly n true systemName systemName := by unfold systemName; infer_instance
instance : Orderly n true programVariable programVariable := by
  unfold programVariable; infer_instance
instance : Orderly n true boolean boolean := by unfold boolean; infer_instance
instance : Orderly n true productOp productOp := by unfold productOp; infer_instance
instance : Orderly n true sign sign := by unfold sign; infer_instance
instance : Orderly n true sumOp sumOp := by unfold sumOp; infer_instance
instance : Orderly n true relationOp relationOp := by unfold relationOp; infer_instance

section
variable {expr expr' : Parser Expr} [Orderly n true expr expr']

instance : Orderly (n + 1) true (parenthesized expr) (parenthesized expr') := by
  unfold parenthesized; infer_instance
instance : Orderly (n + 1) true (operand expr) (operand expr') := by unfold operand; infer_instance
instance : Orderly (n + 1) true (suffix expr) (suffix expr') := by unfold suffix; infer_instance
instance : Orderly (n + 1) true (reference expr) (reference expr') := by
  unfold reference; infer_instance
instance : Orderly (n + 1) true (negation expr) (negation expr') := by
  unfold negation; infer_instance
instance : Orderly (n + 1) true (product expr) (product expr') := by unfold product; infer_instance
instance : Orderly (n + 1) true (signed expr) (signed expr') := by unfold signed; infer_instance
instance : Orderly (n + 1) true (sum expr) (sum expr') := by unfold sum; infer_instance
instance : Orderly (n + 1) true (relation expr) (relation expr') := by
  unfold relation; infer_instance

end

instance : Orderly n true expression expression := .nested (fun _ _ _ _ => inferInstance) n

theorem expression_eq : expression = relation expression :=
  nested_eq (s := true) fun _ _ _ _ => inferInstance

instance : Orderly n true (sum expression) (sum expression) := .shrink inferInstance
instance : Orderly n true (reference expression) (reference expression) := .shrink inferInstance
instance : Orderly n true wholeExpression wholeExpression := by
  unfold wholeExpression; infer_instance

/-! ## Types -/

instance : Orderly n true arrayBound arrayBound := by unfold arrayBound; infer_instance

section
variable {type type' : Parser DataType} [Orderly n true type type']

instance : Orderly (n + 1) true (nameGroupOf type) (nameGroupOf type') := by
  unfold nameGroupOf; infer_instance
instance : Orderly (n + 1) true (arrayType type) (arrayType type') := by
  unfold arrayType; infer_instance
instance : Orderly (n + 1) true (structureType type) (structureType type') := by
  unfold structureType; infer_instance
instance : Orderly (n + 1) true (pathType type) (pathType type') := by
  unfold pathType; infer_instance
instance : Orderly n true stringType stringType := by unfold stringType; infer_instance
instance : Orderly n true motionGroup motionGroup := by unfold motionGroup; infer_instance
instance : Orderly (n + 1) true (dataTypeOf type) (dataTypeOf type') := by
  unfold dataTypeOf; infer_instance

end

instance : Orderly n true dataType dataType := .nested (fun _ _ _ _ => inferInstance) n
instance : Orderly n true nameGroup nameGroup := .shrink (by unfold nameGroup; infer_instance)

/-! ## Statements -/

instance : Orderly n true returnStatement returnStatement := by
  unfold returnStatement; infer_instance
instance : Orderly n true gotoStatement gotoStatement := by unfold gotoStatement; infer_instance
instance : Orderly n true labelStatement labelStatement := by unfold labelStatement; infer_instance
instance : Orderly n true delayStatement delayStatement := by unfold delayStatement; infer_instance
instance : Orderly n true waitForStatement waitForStatement := by
  unfold waitForStatement; infer_instance
instance : Orderly n true argument argument := by unfold argument; infer_instance
instance : Orderly n true arguments arguments := by unfold arguments; infer_instance
instance : Orderly n true transferStatement transferStatement := by
  unfold transferStatement; infer_instance
instance : Orderly n true callStatement callStatement := by unfold callStatement; infer_instance
instance : Orderly n true assignment assignment := by unfold assignment; infer_instance

section
variable {stmt stmt' : Parser Statement} [Orderly n true stmt stmt']

instance : Orderly (n + 1) true (ifStatement stmt) (ifStatement stmt') := by
  unfold ifStatement; infer_instance
instance : Orderly (n + 1) true (forStatement stmt) (forStatement stmt') := by
  unfold forStatement; infer_instance
instance : Orderly (n + 1) true (whileStatement stmt) (whileStatement stmt') := by
  unfold whileStatement; infer_instance
instance : Orderly (n + 1) true (repeatStatement stmt) (repeatStatement stmt') := by
  unfold repeatStatement; infer_instance
instance : Orderly (n + 1) true (selectCase stmt) (selectCase stmt') := by
  unfold selectCase; infer_instance
instance : Orderly (n + 1) true (selectStatement stmt) (selectStatement stmt') := by
  unfold selectStatement; infer_instance
instance : Orderly (n + 1) true (statementOf stmt) (statementOf stmt') := by
  unfold statementOf; infer_instance

end

instance : Orderly n true statement statement := .nested (fun _ _ _ _ => inferInstance) n

theorem statement_eq : statement = statementOf statement :=
  nested_eq (s := true) fun _ _ _ _ => inferInstance

instance : Orderly n false statements statements := by unfold statements; infer_instance

/-! ## Programs -/

instance : Orderly n true constant constant := by unfold constant; infer_instance
instance : Orderly n true typeDeclaration typeDeclaration := by
  unfold typeDeclaration; infer_instance
instance : Orderly n true varItems varItems := by unfold varItems; infer_instance
instance : Orderly n true dataSection dataSection := by unfold dataSection; infer_instance
instance : Orderly n true dataDeclaration dataDeclaration := by
  unfold dataDeclaration; infer_instance
instance : Orderly n true parameters parameters := by unfold parameters; infer_instance

instance {what : String} {p q : Parser String} [h : Orderly n s p q] :
    Orderly n s (matching what p) (matching what q) := by
  refine h.lift (fun c => fun
    | .done word rest =>
      if sameIgnoringCase word what then .done () rest else .failed (.expecting c what)
    | .failed e => .failed e
    | .aborted e => .aborted e) fun c o h => ?_
  cases o with
  | done word rest =>
    dsimp only
    split
    · exact h
    · exact .expecting c _
  | _ => exact h

instance {name : String} : Orderly n true (routineBody name) (routineBody name) := by
  unfold routineBody; infer_instance
instance : Orderly n true routine routine := by unfold routine; infer_instance
instance : Orderly n true declaration declaration := by unfold declaration; infer_instance
instance : Orderly n true directive directive := by unfold directive; infer_instance
instance : Orderly n true program program := by unfold program; infer_instance

end RobotSource.Karel.Grammar
