import RobotSource.Position
/-!
# Parsers with positions

A parser reads from a `Cursor`, the text that is left together with the position of its first
character, and ends in one of three ways (`Outcome`): it is done with a value, it has failed so that
another alternative may be tried, or it has aborted so that nothing else is.

A `Failure` remembers the cursor where it arose, the reason, and what would have been accepted
there. When every alternative fails, `Failure.merge` keeps the failure that got furthest, and
failures at one place pool what they expected.
-/

namespace RobotSource.Parsing

/-! ## Cursors -/

/-- What is left of a text, and the position of its first character. -/
structure Cursor where
  rest : List Char
  position : Position
deriving DecidableEq, Repr

namespace Cursor

/-- The cursor at the beginning of a text. -/
def ofText (text : String) : Cursor := ⟨text.toList, .first⟩

/-- The cursor after the next `n` characters. -/
def drop (c : Cursor) (n : Nat) : Cursor :=
  ⟨c.rest.drop n, c.position.afterAll (c.rest.take n)⟩

/-- Whether nothing is left. -/
def atEnd (c : Cursor) : Bool := c.rest.isEmpty

/-- The text between a cursor and a later one. -/
def upTo (c later : Cursor) : List Char :=
  c.rest.take (c.rest.length - later.rest.length)

end Cursor

/-! ## Failures -/

/-- Why a parser failed. -/
inductive Reason where
  /-- one of the listed things should have stood here -/
  | expecting (alternatives : List String)
  /-- there is no line break here -/
  | noLineBreak
  /-- the text goes on -/
  | notAtEnd
  /-- a repetition came round without reading anything -/
  | stalled
  /-- the text is over -/
  | endOfInput
deriving DecidableEq, Repr

/-- The wording of a reason. -/
def Reason.message : Reason → String
  | .expecting alternatives => "expected " ++ " or ".intercalate alternatives
  | .noLineBreak => "unexpected input (CrLf)"
  | .notAtEnd => "unexpected input (End of file)"
  | .stalled => "unexpected input (Many0)"
  | .endOfInput => "unexpected end of input"

/-- A failure: where, why, and what would have been accepted. -/
structure Failure where
  cursor : Cursor
  reason : Reason
  expected : List String
deriving DecidableEq, Repr

namespace Failure

/-- The failure of not finding `what`. -/
def expecting (c : Cursor) (what : String) : Failure :=
  ⟨c, .expecting [what], [what]⟩

/-- The failure with nothing to suggest. -/
def plain (c : Cursor) (reason : Reason) : Failure :=
  ⟨c, reason, []⟩

/-- At the end of the text the end itself is the reason. -/
def noticeEnd (f : Failure) : Failure :=
  if f.cursor.atEnd then { f with reason := .endOfInput } else f

/-- The expectations of `new` behind those of `old`, without repeating any of them. -/
def pool (old new : List String) : List String :=
  new.foldl (fun known what => if what ∈ known then known else known ++ [what]) old

/-- The failure of two alternatives: the one that got further, or at one place both together. -/
def merge (a b : Failure) : Failure :=
  if a.cursor.position < b.cursor.position then b
  else if b.cursor.position < a.cursor.position then a
  else
    let expected := pool a.expected b.expected
    { cursor := a.cursor
      reason := if expected.isEmpty then a.reason else .expecting expected
      expected := expected }

end Failure

/-! ## Parsers -/

/-- How a parser ends. -/
inductive Outcome (α : Type) where
  /-- a value was read, and the cursor stands behind it -/
  | done (value : α) (rest : Cursor)
  /-- nothing was read; another alternative may be tried -/
  | failed (failure : Failure)
  /-- the text is wrong, whatever other alternatives say -/
  | aborted (failure : Failure)
deriving Repr

/-- A parser is a function from the cursor where it begins. -/
def Parser (α : Type) := Cursor → Outcome α

namespace Parser

variable {α β : Type}

/-- Reads nothing and yields `a`. -/
protected def pure (a : α) : Parser α := fun c => .done a c

/-- Runs `p`, then what `f` makes of its value. -/
protected def bind (p : Parser α) (f : α → Parser β) : Parser β := fun c =>
  match p c with
  | .done a rest => f a rest
  | .failed e => .failed e
  | .aborted e => .aborted e

instance : Monad Parser where
  pure := Parser.pure
  bind := Parser.bind

@[simp] theorem pure_apply (a : α) (c : Cursor) : (pure a : Parser α) c = .done a c := rfl

theorem bind_apply (p : Parser α) (f : α → Parser β) (c : Cursor) :
    (p >>= f) c = match p c with
      | .done a rest => f a rest
      | .failed e => .failed e
      | .aborted e => .aborted e := rfl

theorem map_apply (f : α → β) (p : Parser α) (c : Cursor) :
    (f <$> p) c = match p c with
      | .done a rest => .done (f a) rest
      | .failed e => .failed e
      | .aborted e => .aborted e := rfl

theorem seqRight_apply (p : Parser α) (q : Parser β) (c : Cursor) :
    (p *> q) c = match p c with
      | .done _ rest => q rest
      | .failed e => .failed e
      | .aborted e => .aborted e := rfl

/-- Fails here, where `what` should have stood. -/
def expected (what : String) : Parser α := fun c => .failed (.expecting c what)

/-- Aborts here, where `what` should have stood. -/
def demanded (what : String) : Parser α := fun c => .aborted (.expecting c what)

/-- Yields the cursor. -/
def cursor : Parser Cursor := fun c => .done c c

/-- Yields the position. -/
def position : Parser Position := fun c => .done c.position c

/-- The first alternative that does not fail; if both fail, their failures are merged. -/
protected def orElse (p q : Parser α) : Parser α := fun c =>
  match p c with
  | .failed e =>
    match q c with
    | .failed e' => .failed (e.merge e')
    | outcome => outcome
  | outcome => outcome

instance : OrElse (Parser α) := ⟨fun p q => p.orElse (q ())⟩

/-- What `p` reads, or nothing at all. -/
def maybe (p : Parser α) : Parser (Option α) := fun c =>
  match p c with
  | .done a rest => .done (some a) rest
  | .failed _ => .done none c
  | .aborted e => .aborted e

/-- What `p` reads, if it reads anything; whatever goes wrong in it is forgotten. -/
def attempt (p : Parser α) : Parser (Option α) := fun c =>
  match p c with
  | .done a rest => .done (some a) rest
  | _ => .done none c

/-- The text that `p` reads. -/
def recognized (p : Parser α) : Parser String := fun c =>
  match p c with
  | .done _ rest => .done (String.ofList (c.upTo rest)) rest
  | .failed e => .failed e
  | .aborted e => .aborted e

/-- Runs `p` and goes back to where it began. -/
def lookahead (p : Parser α) : Parser α := fun c =>
  match p c with
  | .done a _ => .done a c
  | outcome => outcome

/-- Any failure of `p` is worded as a missing `what` at the place where `p` began. -/
def named (what : String) (p : Parser α) : Parser α := fun c =>
  match p c with
  | .done a rest => .done a rest
  | _ => .failed (.expecting c what)

/-- A failure of `p` at the end of the text is reported as the end of the text. -/
def noticingEnd (p : Parser α) : Parser α := fun c =>
  match p c with
  | .done a rest => .done a rest
  | .failed e => .failed e.noticeEnd
  | .aborted e => .aborted e.noticeEnd

/-- What `p` reads, with the position where it starts. -/
def withStart (p : Parser α) : Parser (α × Position) :=
  noticingEnd do
    let start ← position
    let a ← p
    return (a, start)

/-- What `p` reads, with the position where it stops. -/
def withStop (p : Parser α) : Parser (α × Position) :=
  noticingEnd do
    let a ← p
    let stop ← position
    return (a, stop)

/-- What `p` reads, with its span. -/
def spanned (p : Parser α) : Parser (α × Span) :=
  noticingEnd do
    let start ← position
    let a ← p
    let stop ← position
    return (a, ⟨start, stop⟩)

end Parser

/-! ## Whole texts -/

/-- A syntax error of a text: where, why, and what would have been accepted. -/
structure SyntaxError where
  position : Position
  reason : Reason
  expected : List String
deriving DecidableEq, Repr

namespace SyntaxError

/-- The failure of a whole text. -/
def ofFailure (f : Failure) : SyntaxError :=
  ⟨f.cursor.position, f.noticeEnd.reason, f.expected⟩

/-- The wording of the reason. -/
def message (e : SyntaxError) : String := e.reason.message

/-- The short form, `line:column: message`. -/
def render (e : SyntaxError) : String :=
  toString e.position.line ++ ":" ++ toString e.position.column ++ ": " ++ e.message

/-- The long form. -/
def describe (e : SyntaxError) : String :=
  "Parse error at line " ++ toString e.position.line ++ " column " ++ toString e.position.column ++
    ": " ++ e.message

end SyntaxError

/-- Reads a value from the beginning of a text. -/
def Parser.run {α : Type} (p : Parser α) (text : String) : Except SyntaxError α :=
  match p (.ofText text) with
  | .done a _ => .ok a
  | .failed e => .error (.ofFailure e)
  | .aborted e => .error (.ofFailure e)

end RobotSource.Parsing
