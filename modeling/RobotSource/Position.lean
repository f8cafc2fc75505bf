/-!
# Positions and spans in a source text

A position is a line and a column, both counted from one; the column counts characters, and only a
line feed opens a new line. Positions are ordered as the text is read: first by line, then by
column. A span runs from its start to the position just past its last character. The counts have no
bound: texts of 4 GiB and more, which overflow counts of 32 bits, are left out of consideration.
-/

namespace RobotSource

/-- Line and column of a character, both counted from one. -/
structure Position where
  line : Nat
  column : Nat
deriving DecidableEq, Repr, Inhabited

namespace Position

/-- The position of the first character of a text. -/
def first : Position := ⟨1, 1⟩

/-- The position of the character that follows `c` at position `p`. -/
def after (p : Position) (c : Char) : Position :=
  if c = '\n' then ⟨p.line + 1, 1⟩ else ⟨p.line, p.column + 1⟩

/-- The position just past a text that begins at `p`. -/
def afterAll (p : Position) (cs : List Char) : Position :=
  cs.foldl after p

/-- Order of reading: by line, then by column. -/
def before (p q : Position) : Prop :=
  p.line < q.line ∨ (p.line = q.line ∧ p.column < q.column)

instance : LT Position := ⟨before⟩

instance : LE Position := ⟨fun p q => p < q ∨ p = q⟩

instance (p q : Position) : Decidable (p < q) :=
  inferInstanceAs (Decidable (_ ∨ _))

instance (p q : Position) : Decidable (p ≤ q) :=
  inferInstanceAs (Decidable (_ ∨ _))

@[simp] theorem afterAll_nil (p : Position) : p.afterAll [] = p := rfl

@[simp] theorem afterAll_cons (p : Position) (c : Char) (cs : List Char) :
    p.afterAll (c :: cs) = (p.after c).afterAll cs := rfl

/-- Reading two texts one after the other. -/
theorem afterAll_append (p : Position) (a b : List Char) :
    p.afterAll (a ++ b) = (p.afterAll a).afterAll b :=
  List.foldl_append

end Position

/-- A stretch of source text: where it starts, and the position just past its end. -/
structure Span where
  start : Position
  stop : Position
deriving DecidableEq, Repr, Inhabited

namespace Span

/-- From the start of one span to the end of another. -/
def cover (a b : Span) : Span := ⟨a.start, b.stop⟩

end Span

end RobotSource
