import RobotSource.Parsing.Repeat
import RobotSource.Text.Alphanumeric
import RobotSource.Text.Blank
import RobotSource.Text.LetterCase
/-!
# Tokens shared by both grammars

Keywords and symbols are matched without regard to case and take the spaces and tabs behind them.
A keyword that ends in a word character must not run on into another one, so that `END` is not read
at the start of `ENDIF`. Identifiers are plain ASCII names and take nothing behind them.
-/

namespace RobotSource.Parsing

open Text

/-! ## Single characters and runs of characters -/

/-- Takes the next characters as long as they satisfy `p`. -/
def takeWhile (p : Char → Bool) : Parser (List Char) := fun c =>
  let taken := c.rest.takeWhile p
  .done taken (c.drop taken.length)

/-- How a character is named in an expectation. -/
def quoteChar (c : Char) : String := "'" ++ String.singleton c ++ "'"

/-- Exactly the character `expected`. -/
def char (expected : Char) : Parser Char := fun c =>
  if c.rest.head? = some expected then .done expected (c.drop 1)
  else .failed (.expecting c (quoteChar expected))

/-- One character that satisfies `p`; a failure asks for `what`. -/
def charThat (what : String) (p : Char → Bool) : Parser Char := fun c =>
  match c.rest with
  | x :: _ => if p x then .done x (c.drop 1) else .failed (.expecting c what)
  | [] => .failed (.expecting c what)

/-- At least one character that satisfies `p`; a failure asks for `what`. -/
def takeWhile1 (what : String) (p : Char → Bool) : Parser (List Char) := fun c =>
  match c.rest.takeWhile p with
  | [] => .failed (.expecting c what)
  | taken => .done taken (c.drop taken.length)

/-- Spaces and tabs. -/
def spaces : Parser Unit := do
  let _ ← takeWhile isSpaceOrTab

/-- Digits, at least one. -/
def digits : Parser (List Char) := takeWhile1 "number" Char.isDigit

/-! ## Keywords and symbols -/

/-- A character that cannot follow directly behind a keyword. -/
def isWord (c : Char) : Bool := isAlphanumeric c || c == '_'

/-- How many characters of the text make up exactly `bytes` bytes; none if the text is too short or
a character straddles the cut. -/
def charsInBytes : Nat → List Char → Option Nat
  | 0, _ => some 0
  | _ + 1, [] => none
  | n + 1, c :: cs =>
    if c.utf8Size ≤ n + 1 then (charsInBytes (n + 1 - c.utf8Size) cs).map (· + 1) else none

/-- How many bytes a text takes. -/
def utf8Length : List Char → Nat
  | [] => 0
  | c :: cs => c.utf8Size + utf8Length cs

/-- How many characters of the text match the word, if it does. Characters are compared in lower
case as far as both texts go, and the match takes as many bytes as the word has. -/
def matchLength? (word text : List Char) : Option Nat :=
  if (text.zip word).all fun (a, b) => lowerCase a == lowerCase b then
    charsInBytes (utf8Length word) text
  else none

/-- Whether the keyword could run on into `next`. -/
def runsOn (word next : List Char) : Bool :=
  word.getLast?.any isWord && next.head?.any isWord

/-- A keyword, in any case, with the spaces and tabs behind it. Yields the keyword as written. -/
def keyword (word : String) : Parser String := fun c =>
  match matchLength? word.toList c.rest with
  | none => .failed (.expecting c word)
  | some n =>
    if runsOn word.toList (c.rest.drop n) then .failed (.expecting c word)
    else (do spaces; return String.ofList (c.rest.take n) : Parser String) (c.drop n)

/-- A symbol, in any case, with the spaces and tabs behind it. Yields the symbol as written. -/
def symbol (sym : String) : Parser String := fun c =>
  match matchLength? sym.toList c.rest with
  | none => .failed (.expecting c ("'" ++ sym ++ "'"))
  | some n => (do spaces; return String.ofList (c.rest.take n) : Parser String) (c.drop n)

/-- `p` between two symbols. -/
def between {α : Type} (opening closing : String) (p : Parser α) : Parser α := do
  let _ ← symbol opening
  let a ← p
  let _ ← symbol closing
  return a

/-- `p` in parentheses. -/
def parens {α : Type} (p : Parser α) : Parser α := between "(" ")" p

/-- `p` in square brackets. -/
def brackets {α : Type} (p : Parser α) : Parser α := between "[" "]" p

/-- `p` in curly braces. -/
def braces {α : Type} (p : Parser α) : Parser α := between "\x7b" "\x7d" p

/-! ## Names and lines -/

/-- A letter or underscore begins a name. -/
def isNameStart (c : Char) : Bool := c.isAlpha || c == '_'

/-- Letters, digits and underscores continue a name. -/
def isNameChar (c : Char) : Bool := c.isAlphanum || c == '_'

/-- A name: a letter or underscore, then letters, digits and underscores. -/
def identifier : Parser String := fun c =>
  match c.rest with
  | x :: xs =>
    if isNameStart x then
      let name := x :: xs.takeWhile isNameChar
      .done (String.ofList name) (c.drop name.length)
    else .failed (.expecting c "identifier")
  | [] => .failed (.expecting c "identifier")

/-- A character of a line break. -/
def isBreak (c : Char) : Bool := c == '\n' || c == '\r'

/-- Everything up to the line break. -/
def restOfLine : Parser (List Char) := takeWhile fun c => !isBreak c

/-- The line break: a line feed, with or without a carriage return before it. -/
def lineBreak : Parser (List Char) := fun c =>
  match c.rest with
  | '\n' :: _ => .done ['\n'] (c.drop 1)
  | '\r' :: '\n' :: _ => .done ['\r', '\n'] (c.drop 2)
  | _ => .failed (.plain c .noLineBreak)

/-- The end of the text. -/
def endOfText : Parser (List Char) := fun c =>
  if c.atEnd then .done [] c else .failed (.plain c .notAtEnd)

/-- The end of the line: its break, or the end of the text. -/
def lineEnd : Parser (List Char) := lineBreak <|> endOfText

end RobotSource.Parsing
