/-!
# Units of a position within a line

An editor counts the characters of a line either in 16-bit units, of which a character beyond the
basic plane takes two, or in characters. `Encoding.charsWithin` turns a count of units into a count
of characters: it stops at the end of the line, and a count that ends inside a character goes past
that character.
-/

namespace RobotSource.Text

/-- The unit in which an editor counts the characters of a line. -/
inductive Encoding where
  | utf16
  | utf32
deriving DecidableEq, Repr

namespace Encoding

/-- How many units a character takes. -/
def units : Encoding → Char → Nat
  | .utf16, c => if c.toNat < 0x10000 then 1 else 2
  | .utf32, _ => 1

/-- How many units a text takes. -/
def count (enc : Encoding) : List Char → Nat
  | [] => 0
  | c :: cs => enc.units c + enc.count cs

/-- How many characters of the line lie before the given number of units. -/
def charsWithin (enc : Encoding) : List Char → Nat → Nat
  | [], _ => 0
  | c :: cs, n => if n = 0 then 0 else enc.charsWithin cs (n - enc.units c) + 1

end Encoding

end RobotSource.Text
