import RobotSource.Parsing.Token
/-!
# Tokens of Karel

Line breaks and `--` comments are white space, and every token takes the white space behind it. The
span of a construct therefore cannot be read off the cursor behind it: `endOfCode` finds the last
character of code in the text that was taken.
-/

namespace RobotSource.Karel.Grammar

open Parsing Parsing.Parser Text

/-! ## White space and comments -/

/-- How many characters of white space and comments the text begins with; inside a comment
everything up to the line break belongs to it. -/
def blankLength (comment : Bool) : List Char → Nat
  | [] => 0
  | c :: cs =>
    if comment then
      if isBreak c then blankLength false cs + 1 else blankLength true cs + 1
    else if isSpacing c then blankLength false cs + 1
    else if c = '-' ∧ cs.head? = some '-' then blankLength true cs + 1
    else 0

/-- White space and comments. -/
def blanks : Parser Unit := fun c => .done () (c.drop (blankLength false c.rest))

/-- The position behind the last character of code. `quoted` and `comment` say whether the text
begins inside a string or a comment, `here` is the position of its first character and `last` the
answer if no code follows. Strings and comments end with their line. -/
def scanCode (quoted comment : Bool) (here last : Position) : List Char → Position
  | [] => last
  | c :: cs =>
    let next := here.after c
    if c = '\n' then scanCode false false next last cs
    else if comment then scanCode quoted true next last cs
    else if !quoted ∧ c = '-' ∧ cs.head? = some '-' then scanCode false true next last cs
    else scanCode (quoted != (c == '\'')) false next (if isBlank c then last else next) cs

/-- The position behind the last character of code in a text that begins at `start`. -/
def endOfCode (start : Position) (text : List Char) : Position :=
  scanCode false false start start text

/-! ## Tokens -/

/-- What `p` reads, with the span of its code: white space and comments at the end are left out. -/
def coded {α : Type} (p : Parser α) : Parser (α × Span) := fun c =>
  match p c with
  | .done a rest => .done (a, ⟨c.position, endOfCode c.position (c.upTo rest)⟩) rest
  | .failed e => .failed e
  | .aborted e => .aborted e

/-- What `p` reads, with the span of its code, and the white space behind it. -/
def lexeme {α : Type} (p : Parser α) : Parser (α × Span) := do
  let a ← coded p
  blanks
  return a

/-- A character with the white space behind it. -/
def punct (c : Char) : Parser Unit := do
  let _ ← char c
  blanks

/-- A keyword with the white space behind it. -/
def kw (word : String) : Parser Unit := do
  let _ ← keyword word
  blanks

/-- An operator with the white space behind it. -/
def op (sym : String) : Parser Unit := do
  let _ ← symbol sym
  blanks

/-! ## Names -/

/-- The words that cannot be used as names. -/
def reservedWords : List String :=
  ["ABORT", "AND", "ARRAY", "BEGIN", "BY", "CASE", "CONST", "DELAY", "DIV", "DO", "DOWNTO", "ELSE",
   "END", "ENDFOR", "ENDIF", "ENDSELECT", "ENDSTRUCTURE", "ENDWHILE", "FOR", "FROM", "GO", "GOTO",
   "IF", "IN", "MOD", "NODEDATA", "NOT", "OF", "OR", "PATHHEADER", "PAUSE", "PROGRAM", "READ",
   "REPEAT", "RETURN", "ROUTINE", "SELECT", "STRUCTURE", "THEN", "TO", "TYPE", "UNTIL", "VAR",
   "WHILE"]

/-- Whether a word is reserved. -/
def isReserved (word : String) : Bool :=
  reservedWords.any (sameIgnoringCase word)

/-- A name that is not reserved; nothing is taken behind it. -/
def name : Parser String := fun c =>
  match identifier c with
  | .done word rest =>
    if isReserved word then .failed (.expecting c "identifier") else .done word rest
  | .failed e => .failed e
  | .aborted e => .aborted e

/-- A name with the white space behind it. -/
def ident : Parser String := do
  let word ← name
  blanks
  return word

end RobotSource.Karel.Grammar
