import RobotSource.Listing.Grammar.Program
import RobotSource.Proofs.Parsing.Line
import RobotSource.Proofs.Parsing.Progress
/-!
# Progress in the grammar of listings
-/

namespace RobotSource.Listing.Grammar

open Parsing Parsing.Parser Text

variable {n : Nat} {α : Type} {p q : Parser α}

/-! ## Expressions -/

instance [Orderly n true p q] : Orderly n true (lexeme p) (lexeme q) := by
  unfold lexeme; infer_instance
instance {x : Char} : Orderly n false (textUntil x) (textUntil x) := by
  unfold textUntil; infer_instance
instance : Orderly n false bracketComment bracketComment := by
  unfold bracketComment; infer_instance
instance : Orderly n true number number := by unfold number; infer_instance
instance {x : Char} : Orderly n true (quoted x) (quoted x) := by unfold quoted; infer_instance
instance : Orderly n true stringLiteral stringLiteral := by unfold stringLiteral; infer_instance
instance : Orderly n true systemStep systemStep := by unfold systemStep; infer_instance
instance : Orderly n true systemVariable systemVariable := by unfold systemVariable; infer_instance
instance : Orderly n true unaryOp unaryOp := by unfold unaryOp; infer_instance
instance : Orderly n true multiplicativeOp multiplicativeOp := by
  unfold multiplicativeOp; infer_instance
instance : Orderly n true additiveOp additiveOp := by unfold additiveOp; infer_instance
instance : Orderly n true comparisonOp comparisonOp := by unfold comparisonOp; infer_instance

section
variable {expr expr' : Parser Expr} [Orderly n true expr expr']

instance : Orderly (n + 1) true (register expr) (register expr') := by
  unfold register; infer_instance
instance : Orderly (n + 1) true (parenthesized expr) (parenthesized expr') := by
  unfold parenthesized; infer_instance
instance : Orderly (n + 1) true (operand expr) (operand expr') := by
  unfold operand; infer_instance
instance : Orderly (n + 1) true (signed expr) (signed expr') := by
  unfold signed; infer_instance
instance : Orderly (n + 1) true (multiplicative expr) (multiplicative expr') := by
  unfold multiplicative; infer_instance
instance : Orderly (n + 1) true (additive expr) (additive expr') := by
  unfold additive; infer_instance
instance : Orderly (n + 1) true (comparison expr) (comparison expr') := by
  unfold comparison; infer_instance
instance : Orderly (n + 1) true (conjunction expr) (conjunction expr') := by
  unfold conjunction; infer_instance
instance : Orderly (n + 1) true (disjunction expr) (disjunction expr') := by
  unfold disjunction; infer_instance

end

/-- An expression reads something, and its inner expressions stand behind something. -/
instance : Orderly n true expression expression :=
  .nested (fun _ _ _ _ => inferInstance) n

instance : Orderly n true primary primary := .shrink (by unfold primary; infer_instance)

/-! ## Instructions -/

instance : Orderly n true labelNumber labelNumber := by
  refine Orderly.lift (p := digits) (q := digits) (s := true) inferInstance (fun c => fun
    | .done ds rest =>
      if digitsValue ds < 0x100000000 then .done (digitsValue ds) rest
      else .aborted (.expecting c "number in range")
    | .failed e => .failed e
    | .aborted e => .aborted e) fun c o h => ?_
  cases o with
  | done ds rest =>
    dsimp only
    split
    · exact h
    · exact .expecting c _
  | _ => exact h

instance : Orderly n true directLabel directLabel := by unfold directLabel; infer_instance
instance : Orderly n true labelReference labelReference := by unfold labelReference; infer_instance
instance : Orderly n true labelDefinition labelDefinition := by
  unfold labelDefinition; infer_instance
instance : Orderly n true callTarget callTarget := by unfold callTarget; infer_instance
instance : Orderly n true assignment assignment := by unfold assignment; infer_instance
instance : Orderly n true action action := by unfold action; infer_instance
instance : Orderly n true caseBranch caseBranch := by unfold caseBranch; infer_instance
instance : Orderly n true motionType motionType := by unfold motionType; infer_instance
instance : Orderly n true speedUnit speedUnit := by unfold speedUnit; infer_instance
instance : Orderly n true speed speed := by unfold speed; infer_instance
instance : Orderly n true termination termination := by unfold termination; infer_instance
instance {word : String} [Worded word] : Orderly n true (skipTo word) (skipTo word) := by
  unfold skipTo; infer_instance
instance : Orderly n true motionOption motionOption := by unfold motionOption; infer_instance
instance : Orderly n true motion motion := by unfold motion; infer_instance
instance : Orderly n true conditional conditional := by unfold conditional; infer_instance
instance : Orderly n true elseBranch elseBranch := by
  unfold elseBranch
  exact Orderly.bind_of (s := true) (t := false) (m := n) inferInstance
    (fun o => by cases o <;> infer_instance) (Nat.le_succ n)
instance : Orderly n true forLoop forLoop := by unfold forLoop; infer_instance
instance : Orderly n true select select := by unfold select; infer_instance
instance : Orderly n true wait wait := by unfold wait; infer_instance
instance : Orderly n true flowInstruction flowInstruction := by
  unfold flowInstruction; infer_instance
instance : Orderly n true otherInstruction otherInstruction := by
  unfold otherInstruction; infer_instance
instance : Orderly n false instructionKind instructionKind := by
  unfold instructionKind; infer_instance
instance : Orderly n true instruction instruction := by unfold instruction; infer_instance

/-! ## Listings -/

instance : Orderly n false emptyLines emptyLines := by unfold emptyLines; infer_instance
instance {marker : String} [Worded marker] : Orderly n true (markerLine marker) (markerLine marker) := by
  unfold markerLine; infer_instance
instance : Orderly n false bodyLines bodyLines :=
  .nested (fun _ _ _ _ => inferInstance) n

section
variable {marker : String} {c r : Cursor}

/-- One line of a section that is read over. -/
def sectionLine (marker : String) : Parser (List Char) := do
  let c ← cursor
  if c.atEnd then expected marker
  else
    let line ← restOfLine
    let _ ← lineEnd
    return line

/-- As long as text is left, there is at least a line break to read. -/
instance : Orderly n true (sectionLine marker) (sectionLine marker) where
  outcome c hc := by
    have hline : Orderly n false (sectionLine marker) (sectionLine marker) := by
      unfold sectionLine; infer_instance
    obtain ⟨-, hreal⟩ := hline.outcome c hc
    refine ⟨rfl, ?_⟩
    cases hdone : sectionLine marker c with
    | done line r =>
      rw [hdone] at hreal
      refine ⟨hreal.1, fun _ => ?_⟩
      obtain ⟨_, _, hcursor, h⟩ := bind_eq_done.1 hdone
      cases hcursor
      split at h
      · cases h
      · rename_i hleft
        exact length_lt_of_line h (by simpa [Cursor.atEnd] using hleft)
    | failed e => rwa [hdone] at hreal
    | aborted e => rwa [hdone] at hreal

/-- The lines before a marker, one by one. -/
theorem linesUntil_body (marker : String) (self : Parser (List (List Char))) :
    (do let c ← cursor
        if c.atEnd then expected marker
        else if atMarker marker c.rest then return []
        else
          let line ← restOfLine
          let _ ← lineEnd
          let lines ← self
          return line :: lines) =
      (do let c ← cursor
          if c.atEnd then expected marker
          else if atMarker marker c.rest then return []
          else
            let line ← sectionLine marker
            let lines ← self
            return line :: lines : Parser (List (List Char))) := by
  funext c
  change (if c.atEnd then _ else _ : Parser _) c = (if c.atEnd then _ else _ : Parser _) c
  by_cases hleft : c.atEnd
  · rw [if_pos hleft, if_pos hleft]
  · rw [if_neg hleft, if_neg hleft]
    split
    · rfl
    · have hline : sectionLine marker c =
          (do let line ← restOfLine; let _ ← lineEnd; return line : Parser _) c :=
        congrFun (if_neg hleft) c
      rw [bind_apply, bind_apply, hline, bind_apply]
      cases restOfLine c with
      | done line c' =>
        simp only [bind_apply]
        cases lineEnd c' <;> rfl
      | _ => rfl

instance : Orderly n false (linesUntil marker) (linesUntil marker) := by
  refine .nested (fun n p q h => ?_) n
  rw [linesUntil_body, linesUntil_body]
  infer_instance

end

instance : Orderly n false positionData positionData := by
  unfold positionData; infer_instance
instance : Orderly n false nothingMore nothingMore := by
  unfold nothingMore; infer_instance
instance : Orderly n true program program := by
  unfold program; infer_instance

end RobotSource.Listing.Grammar
