import RobotSource.Listing.Grammar.Program
import RobotSource.Proofs.Parsing.Outline
/-!
# Gathering from an instruction

Several things are gathered from an instruction in the order in which it is read: the nodes of its
outline, the places that end with a token, its motion options. A `Harvest` says what is to be taken of
each part, and with it what that makes for the whole. The grammar is gone through once for all of them
(`GathersParts.instructionKind`). What is left to each is how it deals with operands and signs, and
with the span that a label, an action or a motion option is given.
-/

namespace RobotSource.Listing

open Parsing

variable {τ : Type}

/-! ## What is gathered -/

/-- What is to be gathered of the parts of an instruction. -/
structure Harvest (τ : Type) where
  expr : Expr → List τ
  name : String → Span → List τ
  label : LabelReference → List τ
  definition : LabelDefinition → List τ
  action : Action → List τ
  option : MotionOption → List τ

namespace Harvest

variable (H : Harvest τ)

def target : LabelTarget → List τ
  | .direct _ => []
  | .indirect value => H.expr value

def call (c : Call) : List τ := H.name c.name c.nameSpan ++ c.arguments.flatMap H.expr

def assignment (a : Assignment) : List τ := H.expr a.target ++ H.expr a.value

def actionKind : ActionKind → List τ
  | .jump label => H.label label
  | .call callee => H.call callee
  | .run callee => H.call callee
  | .assign target => H.assignment target

def branch (b : CaseBranch) : List τ := H.expr b.value ++ H.action b.action

def speed : Speed → List τ
  | .max => []
  | .value amount _ => H.expr amount

def termination : Termination → List τ
  | .fine => []
  | .continuous value => H.expr value
  | .corner value => H.expr value

def optionKind : MotionOptionKind → List τ
  | .skip label => H.label label
  | .skipJump label => H.label label
  | .acceleration value => H.expr value
  | .offset value => value.elim [] H.expr
  | .toolOffset value => value.elim [] H.expr
  | .incremental => []
  | .flag _ => []

def motion (m : Motion) : List τ :=
  H.expr m.destination ++ H.speed m.speed ++ H.termination m.termination ++
    m.options.flatMap H.option

/-- All that is to be gathered of an instruction. -/
def instructionKind : InstructionKind → List τ
  | .label definition => H.definition definition
  | .jump target => H.label target
  | .call callee => H.call callee
  | .run callee => H.call callee
  | .motion along => H.motion along
  | .assign target => H.assignment target
  | .ifAction condition action => H.expr condition ++ H.action action
  | .ifThen condition => H.expr condition
  | .forLoop counter initial _ limit => H.expr counter ++ H.expr initial ++ H.expr limit
  | .select subject branch => H.expr subject ++ H.branch branch
  | .case branch => H.branch branch
  | .caseElse action => H.action action
  | .delay time => H.expr time
  | .waitUntil condition timeout => H.expr condition ++ timeout.elim [] H.label
  | .skipCondition condition => H.expr condition
  | _ => []

end Harvest

namespace Grammar

open Parsing.Parser Text

/-! ## Tokens -/

instance {L : Cursor → Cursor → Prop} [h : Reads L digits] : Reads L labelNumber where
  of_done {c r n} hdone := by
    rw [labelNumber] at hdone
    split at hdone
    · split at hdone <;> cases hdone
      exact h.of_done ‹_›
    · cases hdone
    · cases hdone

theorem inRow_takeWhile {q : Char → Bool} (h : q '\n' = false) : Reads (Over InRow) (takeWhile q) := by
  refine over_takeWhile fun x hx => ?_
  rintro rfl
  simp [h] at hx

instance {stop : Char} : Reads (Over InRow) (textUntil stop) :=
  have := inRow_takeWhile (q := fun x => !(x == stop || isBreak x)) (by simp [isBreak])
  inferInstanceAs (Reads _ (takeWhile _ >>= fun _ => pure _))

instance : Reads (Over InRow) bracketComment := by unfold bracketComment; infer_instance
instance : Verbatim number := by unfold number; infer_instance
instance : Reads (Over InRow) unaryOp := by unfold unaryOp; infer_instance
instance : Reads (Over InRow) multiplicativeOp := by unfold multiplicativeOp; infer_instance
instance : Reads (Over InRow) additiveOp := by unfold additiveOp; infer_instance
instance : Reads (Over InRow) comparisonOp := by unfold comparisonOp; infer_instance
instance : Reads (Over InRow) speedUnit := by unfold speedUnit; infer_instance
instance : Reads (Over InRow) motionType := by unfold motionType; infer_instance
instance : Reads (Over InRow) (keyword "MESSAGE" *> brackets (textUntil ']')) := by
  unfold brackets between; infer_instance

/-- The number in front of a body line, with its colon and white space. -/
theorem inRow_number {u u' : Unit} {ds : List Char} {x : Char} {c c₁ c₂ c₃ c₄ : Cursor}
    (h₁ : spaces c = .done u c₁) (h₂ : digits c₁ = .done ds c₂) (h₃ : char ':' c₂ = .done x c₃)
    (h₄ : spaces c₃ = .done u' c₄) : Over InRow c c₄ :=
  (inRow_of_done h₁).trans <| (inRow_of_done h₂).trans <| (inRow_of_done h₃).trans <|
  inRow_of_done h₄

/-! ## Expressions -/

variable {ι : Type} {S : ι → List τ → Cursor → Prop} {H : Harvest τ}

/-- What is gathered goes along with plain text in the row, and with what expressions are made of. -/
structure GathersOperands (S : ι → List τ → Cursor → Prop) (H : Harvest τ) : Prop where
  row {α : Type} {p : Parser α} [Reads (Over InRow) p] : Leaves S p
  /-- what nothing is made of may be forgotten -/
  forget {α : Type} {p : Parser α} {ν : α → List τ} : Gathers S p ν → Leaves S p
  operand {e : Parser Expr} : Gathers S e H.expr → Gathers S (operand e) H.expr
  signed {e : Parser Expr} : Gathers S e H.expr → Gathers S (signed e) H.expr
  join {i : ι} {ns : List τ} {c : Cursor} {left right : Expr} {op : BinaryOp} :
    S i (ns ++ H.expr left ++ H.expr right) c → S i (ns ++ H.expr (left.join op right)) c
  name : Gathers S (spanned identifier) fun x => H.name x.1 x.2

namespace GathersOperands

variable (G : GathersOperands S H)
include G

theorem chainLeft {e : Parser Expr} {o : Parser BinaryOp} [Reads (Over InRow) o]
    (he : Gathers S e H.expr) : Gathers S (chainLeft e o Expr.join) H.expr := by
  intro i ns
  refine Yields.chainLeft (he i ns) (fun left => G.row i _) fun left op => ?_
  exact (he i _).imp (fun _ hc => hc) fun _ _ hr => G.join hr

theorem comparison {e : Parser Expr} (he : Gathers S e H.expr) :
    Gathers S (comparison e) H.expr := by
  have hadd : Gathers S (additive e) H.expr :=
    G.chainLeft (G.chainLeft (G.signed he))
  intro i ns
  refine (hadd i ns).bind fun left => (G.row i _).bind fun op => ?_
  cases op with
  | none => exact .pure fun c hc => hc
  | some op => exact (hadd i _).bind fun right => .pure fun c hc => G.join hc

theorem expression : Gathers S expression H.expr :=
  .nested fun _ he => G.chainLeft (G.chainLeft (G.comparison he))

theorem primary : Gathers S primary H.expr := G.operand G.expression

/-! ## Labels, calls and actions -/

theorem directOrIndirect :
    Gathers S (directLabel <|> (LabelTarget.indirect <$> Grammar.expression)) H.target := by
  refine .orElse (fun i ns => ?_) (.map G.expression)
  refine (G.row i ns).bind fun n => (G.row i ns).bind fun _ => ?_
  refine Yields.bind (.lookahead fun _ _ hc => hc) fun _ => .pure fun c hc => ?_
  simpa [Harvest.target] using hc

/-- What stands in a label, with its brackets. -/
theorem labelTarget : Gathers S (do
    let _ ← keyword "LBL"
    let _ ← char '['
    spaces
    let target ← directLabel <|> (.indirect <$> Grammar.expression)
    let _ ← bracketComment
    let _ ← char ']'
    return target) H.target := by
  intro i ns
  refine (G.row i ns).bind fun _ => (G.row i ns).bind fun _ => ?_
  refine (G.row i ns).bind fun _ => (G.directOrIndirect i ns).bind fun target => ?_
  refine (G.row i _).bind fun _ => ?_
  exact (G.row i _).bind fun _ => .pure fun _ hc => hc

theorem callTarget : Gathers S callTarget H.call := by
  have hparens : Gathers S (parens (sepBy (symbol ",") Grammar.expression))
      fun es => es.flatMap H.expr := fun i ns =>
    (G.row i ns).bind fun _ => (Gathers.sepBy G.row G.expression i ns).bind
      fun _ => (G.row i _).bind fun _ => .pure fun _ hc => hc
  intro i ns
  refine (G.name i ns).bind fun x => (G.row i _).bind fun _ => ?_
  refine (hparens.maybe i _).bind fun arguments => .pure fun c hc => ?_
  cases arguments <;> simpa [Harvest.call] using hc

theorem assignment : Gathers S assignment H.assignment := by
  intro i ns
  refine (G.primary i ns).bind fun target => (G.row i _).bind fun _ => ?_
  refine (G.expression i _).bind fun value => (G.row i _).bind fun _ => ?_
  exact .pure fun c hc => by simpa [Harvest.assignment] using hc

/-- An action, if its label and its span are gathered. -/
theorem action (hlabel : Gathers S labelReference H.label)
    (hspanned : ∀ p, Gathers S p H.actionKind → Gathers S (spanned p) fun x => H.action ⟨x.1, x.2⟩) :
    Gathers S action H.action := by
  intro i ns
  refine (hspanned _ ?_ i ns).bind fun _ => .pure fun _ hc => hc
  refine .orElse (.map (.seqRight G.row hlabel)) ?_
  refine .orElse (.map (.seqRight G.row G.callTarget)) ?_
  exact .orElse (.map (.seqRight G.row G.callTarget)) (.map G.assignment)

/-! ## Motion -/

theorem speed : Gathers S speed H.speed := by
  refine .orElse (.seqRight G.row (.pure rfl)) fun i ns => ?_
  exact (G.primary i ns).bind fun amount => (G.row i _).bind fun unit =>
    .pure fun _ hc => hc

theorem termination : Gathers S termination H.termination :=
  .orElse (.seqRight G.row (.pure rfl)) <|
  .orElse (.map (.seqRight G.row G.primary)) (.map (.seqRight G.row G.primary))

/-- A motion option, if its label and its span are gathered. -/
theorem motionOption (hlabel : Gathers S labelReference H.label)
    (hspanned : ∀ p, Gathers S p H.optionKind → Gathers S (spanned p) fun x => H.option ⟨x.1, x.2⟩) :
    Gathers S motionOption H.option := by
  have hvalue : Gathers S (maybe (symbol "," *> Grammar.primary)) fun o => o.elim [] H.expr :=
    .maybe (.seqRight G.row G.primary)
  have hskip {word : String} [Worded word] : Gathers S (skipTo word) H.label :=
    .seqRight G.row (.seqRight G.row hlabel)
  intro i ns
  refine (hspanned _ ?_ i ns).bind fun _ => .pure fun _ hc => hc
  refine .orElse (.map hskip) (.orElse (fun i ns => ?_) ?_)
  · -- An assignment behind the label is read and dropped.
    refine (hskip i ns).bind fun label => ?_
    exact (G.forget (.maybe (.seqRight G.row G.assignment)) i _).bind fun _ => .pure fun _ hc => hc
  refine .orElse (.map (.seqRight G.row G.primary)) ?_
  refine .orElse (.map (.seqRight G.row hvalue)) (.orElse (.map (.seqRight G.row hvalue)) ?_)
  refine .orElse (.seqRight G.row (.pure rfl)) fun i ns => ?_
  refine (G.row i ns).bind fun _ => (G.row i ns).bind fun _ => .pure fun _ hc => ?_
  simpa [Harvest.optionKind] using hc

end GathersOperands

/-! ## Instructions -/

/-- Labels, actions and motion options are gathered as well. -/
structure GathersParts (S : ι → List τ → Cursor → Prop) (H : Harvest τ) : Prop
    extends GathersOperands S H where
  label : Gathers S labelReference H.label
  definition : Gathers S labelDefinition H.definition
  action : Gathers S action H.action
  option : Gathers S motionOption H.option

namespace GathersParts

variable (G : GathersParts S H)
include G

theorem caseBranch : Gathers S caseBranch H.branch := by
  intro i ns
  refine (G.expression i ns).bind fun value => (G.row i _).bind fun _ => ?_
  refine (G.action i _).bind fun action => .pure fun c hc => ?_
  simpa [Harvest.branch] using hc

theorem motion : Gathers S motion H.motion := by
  intro i ns
  refine (G.row i ns).bind fun type => (G.primary i _).bind fun destination => ?_
  refine (G.speed i _).bind fun speed => (G.termination i _).bind fun termination => ?_
  refine (G.option.many i _).bind fun options => .pure fun c hc => ?_
  simpa [Harvest.motion] using hc

theorem conditional : Gathers S conditional H.instructionKind := by
  intro i ns
  refine (Gathers.seqRight G.row G.expression i ns).bind fun condition => .orElse ?_ (.map ?_)
  · exact (G.row i _).seqRight (.pure fun _ hc => hc)
  · refine (G.row i _).seqRight ((G.action i _).imp (fun _ hc => hc)
      fun action r hr => ?_)
    simpa [Harvest.instructionKind] using hr

theorem elseBranch : Gathers S elseBranch H.instructionKind := by
  have haction : Gathers S (maybe (symbol "," *> Grammar.action)) fun o => o.elim [] H.action :=
    .maybe (.seqRight G.row G.action)
  intro i ns
  refine (Gathers.seqRight G.row haction i ns).bind fun o => ?_
  cases o with
  | none => exact .pure fun _ hc => hc
  | some action => exact .pure fun _ hc => hc

theorem forLoop : Gathers S forLoop H.instructionKind := by
  intro i ns
  refine (G.row i ns).bind fun _ => (G.primary i ns).bind fun counter => ?_
  refine (G.row i _).bind fun _ => (G.expression i _).bind fun initial => ?_
  refine (G.row i _).bind fun direction => ?_
  refine (G.expression i _).bind fun limit => .pure fun c hc => ?_
  simpa [Harvest.instructionKind] using hc

theorem select : Gathers S select H.instructionKind := by
  intro i ns
  refine (G.row i ns).bind fun _ => (G.primary i ns).bind fun subject => ?_
  refine (G.row i _).bind fun _ => (G.caseBranch i _).bind fun branch => ?_
  refine .pure fun c hc => ?_
  simpa [Harvest.instructionKind] using hc

theorem wait : Gathers S wait H.instructionKind := by
  have htime : Gathers S (do let time ← Grammar.primary; let _ ← symbol "(sec)"; return time)
      H.expr := fun i ns =>
    (G.primary i ns).bind fun time => (G.row i _).bind fun _ => .pure fun _ hc => hc
  have htimeout : Gathers S (maybe (keyword "TIMEOUT" *> symbol "," *> labelReference))
      fun o => o.elim [] H.label :=
    .maybe (.seqRight G.row G.label)
  intro i ns
  refine (G.row i ns).bind fun _ => (htime.attempt i ns).bind fun o => ?_
  cases o with
  | some time => exact .pure fun _ hc => hc
  | none =>
    refine (G.expression i _).bind fun condition => (htimeout i _).bind fun timeout => ?_
    refine .pure fun c hc => ?_
    simpa [Harvest.instructionKind] using hc

/-- A keyword that is a whole instruction. -/
theorem word {word : String} [Worded word] {kind : InstructionKind}
    (hkind : H.instructionKind kind = []) :
    Gathers S (keyword word *> pure kind) H.instructionKind :=
  .seqRight G.row (.pure hkind)

theorem flowInstruction : Gathers S flowInstruction H.instructionKind := by
  have hcomment {sym : String} [Worded sym] : Gathers S (symbol sym *> textUntil ';') fun _ => [] :=
    .of_leaves G.row fun _ => rfl
  refine .orElse (.map hcomment) (.orElse (.map hcomment) ?_)
  refine .orElse (.map G.definition) (.orElse (.map (.seqRight G.row G.label)) ?_)
  refine .orElse (.map (.seqRight G.row G.callTarget)) ?_
  refine .orElse (.map (.seqRight G.row G.callTarget)) ?_
  refine G.conditional.orElse (G.elseBranch.orElse (.orElse (G.word rfl) ?_))
  refine .orElse (G.word rfl) (.orElse (G.word rfl) (G.forLoop.orElse (G.select.orElse ?_)))
  exact .map (.seqRight G.row G.caseBranch)

theorem otherInstruction : Gathers S otherInstruction H.instructionKind := by
  refine G.wait.orElse (.orElse (.map (.seqRight G.row G.expression)) ?_)
  refine .orElse (.map (.of_leaves G.row fun _ => rfl)) ?_
  refine .orElse (G.word rfl) (.orElse (G.word rfl) ?_)
  exact .orElse (.map G.motion) (.map G.assignment)

/-- **All of an instruction is gathered if its parts are.** -/
theorem instructionKind : Gathers S instructionKind H.instructionKind :=
  .orElse (.seqRight G.row (.pure rfl))
    (G.flowInstruction.orElse G.otherInstruction)

end GathersParts

end Grammar

end RobotSource.Listing
