/-!
# Bytes of a text

Text is stored in files and written in addresses as UTF-8. `decodeUtf8?` refuses bytes that are no
text; `decodeUtf8` reads on and puts a replacement character for each part that is none.
-/

namespace RobotSource.Text

/-- The bytes of a text. -/
def encodeUtf8 (cs : List Char) : List UInt8 :=
  cs.flatMap String.utf8EncodeChar

/-- The least and greatest second byte that may follow a first byte of a longer character. -/
def secondByteRange (first : Nat) : Nat × Nat :=
  if first = 0xe0 then (0xa0, 0xbf)
  else if first = 0xed then (0x80, 0x9f)
  else if first = 0xf0 then (0x90, 0xbf)
  else if first = 0xf4 then (0x80, 0x8f)
  else (0x80, 0xbf)

/-- How many bytes a character has that begins with this byte; zero if none does. -/
def sequenceLength (first : Nat) : Nat :=
  if first < 0x80 then 1
  else if first < 0xc2 then 0
  else if first < 0xe0 then 2
  else if first < 0xf0 then 3
  else if first < 0xf5 then 4
  else 0

/-- The bytes behind the first that go on with a character of the given length, at most that many.
-/
def continuation (first length : Nat) (bytes : List UInt8) : List UInt8 :=
  match bytes.take (length - 1) with
  | [] => []
  | b :: rest =>
    let (lo, hi) := secondByteRange first
    if lo ≤ b.toNat ∧ b.toNat ≤ hi then
      b :: rest.takeWhile fun b => 0x80 ≤ b.toNat && b.toNat ≤ 0xbf
    else []

/-- The bits that a first byte contributes. -/
def leadingBits (first length : Nat) : Nat :=
  match length with
  | 2 => first % 0x20
  | 3 => first % 0x10
  | 4 => first % 0x08
  | _ => first

/-- The first character of some bytes, if they begin with one, and how many bytes belong to it or to
what stands in its place. -/
def firstChar (first : UInt8) (bytes : List UInt8) : Option Char × Nat :=
  let length := sequenceLength first.toNat
  let more := continuation first.toNat length bytes
  if length ≠ 0 ∧ more.length + 1 = length then
    let n := more.foldl (fun n b => n * 0x40 + b.toNat % 0x40) (leadingBits first.toNat length)
    (some (Char.ofNat n), length)
  else (none, more.length + 1)

/-- The characters of some bytes, where nothing is put for what is no character. -/
def decodeParts (bytes : List UInt8) : List (Option Char) :=
  match bytes with
  | [] => []
  | b :: rest =>
    let (c, n) := firstChar b rest
    c :: decodeParts (rest.drop (n - 1))
termination_by bytes.length
decreasing_by simp only [List.length_drop, List.length_cons]; omega

/-- The text of some bytes, with a replacement character for each part that is no text. -/
def decodeUtf8 (bytes : List UInt8) : List Char :=
  (decodeParts bytes).map (·.getD (Char.ofNat 0xfffd))

/-- The text of some bytes, if they are text. -/
def decodeUtf8? (bytes : List UInt8) : Option (List Char) :=
  (decodeParts bytes).mapM id

end RobotSource.Text
