import RobotSource.Text.Alphanumeric
/-!
# Characters of a word

`isWordCharacter` holds of the characters that a text pattern counts as part of a word: letters,
marks, decimal digits, connecting punctuation and the two joiners. A word boundary lies where this
class changes. `isDecimalDigit` is the class of decimal digits of every script.
-/

namespace RobotSource.Text

/-- Numbers that are no decimal digits, like fractions and digits in a circle. -/
def otherNumberSet : CharSet := .ofSteps [
  178, 2, 5, 1, 2, 3, 2357, 6, 376, 6, 120, 3, 133, 7, 217, 7, 17, 9, 433, 10, 1077, 20, 1139, 10,
  480, 1, 1685, 1, 3, 6, 6, 10, 198, 16, 41, 1, 726, 60, 78, 22, 630, 30, 1385, 1, 1172, 4, 138, 10,
  30, 8, 1, 15, 32, 10, 39, 15, 30064, 6, 22737, 45, 65, 4, 17, 2, 341, 27, 36, 4, 1332, 8, 25, 7,
  39, 9, 75, 5, 22, 6, 160, 2, 2, 16, 2, 46, 64, 9, 52, 2, 30, 3, 75, 5, 104, 8, 24, 8, 41, 7, 330,
  6, 352, 31, 158, 10, 42, 4, 112, 7, 134, 20, 379, 20, 1349, 2, 430, 9, 871, 19, 851, 21, 19334, 7,
  798, 23, 25641, 20, 12, 20, 108, 25, 5454, 9, 929, 59, 1, 3, 1, 4, 76, 45, 1, 15, 962, 13]

/-- Marks that are not alphabetic, connectors and joiners. -/
def markSet : CharSet := .ofSteps [
  768, 69, 1, 42, 275, 7, 263, 31, 168, 1, 134, 2, 9, 3, 83, 11, 160, 9, 9, 1, 26, 2, 19, 1, 43, 3,
  60, 8, 42, 10, 12, 2, 8, 6, 76, 1, 16, 1, 3, 4, 103, 1, 16, 1, 48, 1, 61, 1, 16, 1, 110, 1, 16, 1,
  47, 3, 60, 1, 16, 1, 7, 1, 119, 1, 110, 1, 16, 1, 110, 1, 16, 1, 109, 2, 16, 1, 124, 1, 124, 6, 1,
  1, 107, 1, 13, 5, 1, 1, 73, 2, 27, 1, 1, 1, 1, 1, 4, 2, 68, 1, 1, 2, 62, 1, 112, 1, 1, 2, 802, 3,
  948, 2, 30, 1, 127, 2, 19, 11, 9, 1, 45, 3, 1, 1, 297, 3, 292, 1, 20, 8, 2, 1, 48, 15, 2, 11, 104,
  1, 15, 1, 38, 9, 54, 2, 58, 1, 11, 2, 67, 1, 152, 3, 1, 21, 4, 1, 6, 1, 2, 3, 198, 39, 14, 11,
  524, 2, 49, 2, 19, 1, 123, 33, 3070, 3, 141, 1, 682, 6, 105, 2, 30164, 4, 9, 2, 114, 2, 276, 1,
  37, 1, 151, 1, 27, 18, 57, 3, 37, 1, 95, 1, 12, 1, 254, 1, 1, 1, 52, 1, 245, 2, 21010, 16, 16, 16,
  3, 2, 24, 3, 239, 1, 701, 1, 226, 1, 1879, 3, 4, 1, 165, 2, 1046, 3, 70, 11, 49, 4, 192, 1, 41, 1,
  14, 1, 57, 2, 120, 2, 62, 1, 76, 1, 8, 4, 104, 2, 178, 2, 80, 2, 16, 1, 24, 7, 3, 5, 205, 1, 3, 1,
  23, 1, 99, 2, 251, 2, 126, 1, 118, 2, 115, 1, 269, 2, 258, 2, 4, 1, 156, 1, 82, 2, 18, 1, 80, 2,
  421, 1, 258, 1, 1, 2, 81, 1, 425, 2, 5373, 1, 6, 15, 13978, 5, 59, 7, 1197, 1, 19640, 1, 4706, 46,
  2, 23, 542, 5, 3, 6, 8, 8, 2, 7, 30, 4, 148, 3, 1979, 55, 4, 50, 8, 1, 14, 1, 22, 5, 1, 15, 1664,
  7, 375, 1, 61, 4, 508, 4, 992, 7, 109, 3, 1, 3, 792501, 240]

/-- The decimal digits of every script. -/
def decimalDigitSet : CharSet := .ofSteps [
  48, 10, 1574, 10, 134, 10, 198, 10, 412, 10, 118, 10, 118, 10, 118, 10, 118, 10, 118, 10, 118,
  10, 118, 10, 118, 10, 118, 10, 96, 10, 118, 10, 70, 10, 278, 10, 70, 10, 1862, 10, 38, 10, 300,
  10, 128, 10, 166, 10, 6, 10, 182, 10, 86, 10, 134, 10, 6, 10, 35270, 10, 678, 10, 38, 10, 198,
  10, 22, 10, 86, 10, 406, 10, 21270, 10, 1414, 10, 2182, 10, 812, 10, 128, 10, 60, 10, 144, 10,
  278, 10, 342, 10, 118, 10, 374, 10, 102, 10, 102, 10, 422, 10, 102, 10, 758, 10, 246, 10, 70,
  10, 422, 10, 19206, 10, 86, 10, 134, 10, 27764, 50, 2368, 10, 422, 10, 502, 10, 1110, 10, 4758,
  10]

/-- A character that is part of a word. -/
def isWordCharacter (c : Char) : Bool :=
  if c.toNat < 128 then c.isAlphanum || c == '_'
  else (alphanumericSet.mem c && !otherNumberSet.mem c) || markSet.mem c

/-- A decimal digit of any script. -/
def isDecimalDigit (c : Char) : Bool :=
  if c.toNat < 128 then c.isDigit else decimalDigitSet.mem c

end RobotSource.Text
