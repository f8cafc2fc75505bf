import RobotSource.Parsing.Basic
/-!
# Repetition and nesting

Every repetition goes on only while the text that is left gets shorter, so each of them ends for any
parser whatever. `nested` ties the knot of a recursive grammar in the same way: the inner parser
that its rule receives answers only behind the place where the rule began.
-/

namespace RobotSource.Parsing

namespace Parser

variable {α β γ : Type}

/-- Puts one more value in front of a list that was read. -/
def consTo (a : α) : Outcome (List α) → Outcome (List α)
  | .done as rest => .done (a :: as) rest
  | .failed e => .failed e
  | .aborted e => .aborted e

/-- As many as there are of what `p` reads. -/
def many (p : Parser α) : Parser (List α) := fun c =>
  match p c with
  | .failed _ => .done [] c
  | .aborted e => .aborted e
  | .done a next =>
    if next.rest.length < c.rest.length then consTo a (many p next)
    else .failed (.plain c .stalled)
termination_by c => c.rest.length

/-- At least one of what `p` reads. -/
def many1 (p : Parser α) : Parser (List α) := do
  let a ← p
  let as ← many p
  return a :: as

/-- Any further items, each behind a separator. A separator without an item is left unread. -/
def sepTail (separator : Parser β) (p : Parser α) : Parser (List α) := fun c =>
  match separator c with
  | .failed _ => .done [] c
  | .aborted e => .aborted e
  | .done _ behind =>
    match p behind with
    | .failed _ => .done [] c
    | .aborted e => .aborted e
    | .done a next =>
      if next.rest.length < c.rest.length then consTo a (sepTail separator p next)
      else .failed (.plain c .stalled)
termination_by c => c.rest.length

/-- At least one item, with separators between them. -/
def sepBy1 (separator : Parser β) (p : Parser α) : Parser (List α) := do
  let a ← p
  let as ← sepTail separator p
  return a :: as

/-- Items with separators between them, or none at all. -/
def sepBy (separator : Parser β) (p : Parser α) : Parser (List α) := fun c =>
  match p c with
  | .failed _ => .done [] c
  | .aborted e => .aborted e
  | .done a next => consTo a (sepTail separator p next)

/-- The operators and operands that follow a first operand, combined from the left. Behind an
operator an operand has to follow. -/
def chainTail (operand : Parser α) (operator : Parser β) (combine : α → β → α → α) (left : α) :
    Parser α := fun c =>
  match operator c with
  | .failed _ => .done left c
  | .aborted e => .aborted e
  | .done op behind =>
    match operand behind with
    | .failed e => .failed e
    | .aborted e => .aborted e
    | .done right next =>
      if next.rest.length < c.rest.length then
        chainTail operand operator combine (combine left op right) next
      else .failed (.plain c .stalled)
termination_by c => c.rest.length

/-- One operand, or several with operators between them, combined from the left. -/
def chainLeft (operand : Parser α) (operator : Parser β) (combine : α → β → α → α) : Parser α := do
  let left ← operand
  chainTail operand operator combine left

/-- A rule that refers to itself. The inner reference reads only behind the place where the rule
began. -/
def nested (rule : Parser α → Parser α) : Parser α := fun c =>
  rule (fun inner =>
    if inner.rest.length < c.rest.length then nested rule inner
    else .failed (.plain inner .stalled)) c
termination_by c => c.rest.length

end Parser

end RobotSource.Parsing
