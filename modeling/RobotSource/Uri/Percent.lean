import RobotSource.Text.Digit
import RobotSource.Text.Utf8
/-!
# Percent encoding

Characters that may not stand in a part of an address are written as the bytes of their UTF-8 form,
each as a percent sign and two hexadecimal digits in upper case. Which characters these are differs
from part to part of an address. Decoding leaves a percent sign alone that no two hexadecimal digits
follow.
-/

namespace RobotSource.Uri

open Text

/-- A byte behind a percent sign. -/
def encodeByte (b : UInt8) : List Char :=
  ['%', (hexDigit (b.toNat / 16)).toUpper, (hexDigit (b.toNat % 16)).toUpper]

/-- The text with every character encoded that `special` holds of. -/
def percentEncode (special : Char → Bool) (cs : List Char) : List Char :=
  cs.flatMap fun c => if special c then (String.utf8EncodeChar c).flatMap encodeByte else [c]

/-- The bytes that an encoded text stands for. -/
def percentDecode : List Char → List UInt8
  | [] => []
  | '%' :: a :: b :: rest =>
    match hexValue? a, hexValue? b with
    | some x, some y => UInt8.ofNat (16 * x + y) :: percentDecode rest
    | _, _ => UInt8.ofNat '%'.toNat :: percentDecode (a :: b :: rest)
  | c :: rest => String.utf8EncodeChar c ++ percentDecode rest

/-! ## What is encoded where -/

/-- Control characters and everything outside ASCII. -/
def isControl (c : Char) : Bool := c.toNat < 0x20 || 0x7e < c.toNat

/-- Encoded behind the number sign. -/
def fragmentSpecial (c : Char) : Bool :=
  isControl c || [' ', '"', '<', '>', '\x60'].contains c

/-- Encoded in a path. -/
def pathSpecial (c : Char) : Bool :=
  fragmentSpecial c || ['#', '?', '\x7b', '\x7d'].contains c

/-- Encoded in a path that is made from the name of a file. -/
def segmentSpecial (c : Char) : Bool :=
  pathSpecial c || ['/', '%', '\\'].contains c

/-- Encoded in a user name or password. -/
def userSpecial (c : Char) : Bool :=
  pathSpecial c || ['/', ':', ';', '=', '@', '[', '\\', ']', '^', '|'].contains c

/-- Encoded in a query. -/
def querySpecial (c : Char) : Bool :=
  isControl c || [' ', '"', '#', '<', '>'].contains c

end RobotSource.Uri
