/-!
# White space and trimming

`isBlank` is the Unicode class of white space. The trimming functions cut what a test accepts off
one or both ends of a list of characters; they are what every reader of comments, attributes and
body lines uses to drop the surrounding blanks.
-/

namespace RobotSource.Text

/-- White space of any script. -/
def isBlank (c : Char) : Bool :=
  let n := c.toNat
  (9 ≤ n && n ≤ 13) || n == 0x20 || n == 0x85 || n == 0xa0 || n == 0x1680 ||
    (0x2000 ≤ n && n ≤ 0x200a) || n == 0x2028 || n == 0x2029 || n == 0x202f || n == 0x205f ||
    n == 0x3000

/-- A space or a tab. -/
def isSpaceOrTab (c : Char) : Bool :=
  c == ' ' || c == '\t'

/-- Space, tab or a character of a line break. -/
def isSpacing (c : Char) : Bool :=
  c == ' ' || c == '\t' || c == '\r' || c == '\n'

/-- Whether all of the text is white space. -/
def allBlank (cs : List Char) : Bool :=
  cs.all isBlank

/-- Without the longest end of the text that satisfies `p`. -/
def dropEndWhile (p : Char → Bool) : List Char → List Char
  | [] => []
  | c :: cs =>
    match dropEndWhile p cs with
    | [] => if p c then [] else [c]
    | rest => c :: rest

/-- Without white space at the beginning. -/
def trimStart (cs : List Char) : List Char :=
  cs.dropWhile isBlank

/-- Without white space at the end. -/
def trimEnd (cs : List Char) : List Char :=
  dropEndWhile isBlank cs

/-- Without white space at either end. -/
def trim (cs : List Char) : List Char :=
  trimEnd (trimStart cs)

/-- Without the given character at either end, however often it stands there. -/
def trimOf (c : Char) (cs : List Char) : List Char :=
  dropEndWhile (· == c) (cs.dropWhile (· == c))

end RobotSource.Text
