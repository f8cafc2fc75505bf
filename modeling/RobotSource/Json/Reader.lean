import RobotSource.Json.Basic
import RobotSource.Parsing.Token
import RobotSource.Text.Digit
/-!
# Reading JSON

`Json.parse` accepts exactly one value with white space around it. Arrays and objects may be nested
127 deep. Of members with one name the last counts. A number too large for a double is refused, and
so are lone surrogates and bare control characters in strings.
-/

namespace RobotSource.Json

open Parsing Parsing.Parser Text

/-! ## Strings -/

/-- The value of four hexadecimal digits. -/
def hexQuad? (a b c d : Char) : Option Nat := do
  let a ← hexValue? a
  let b ← hexValue? b
  let c ← hexValue? c
  let d ← hexValue? d
  return ((a * 16 + b) * 16 + c) * 16 + d

/-- The character of a short escape. -/
def shortEscape? : Char → Option Char
  | '"' => some '"'
  | '\\' => some '\\'
  | '/' => some '/'
  | 'b' => some '\x08'
  | 'f' => some '\x0c'
  | 'n' => some '\n'
  | 'r' => some '\r'
  | 't' => some '\t'
  | _ => none

/-- The character of a pair of surrogates. -/
def surrogatePair? (high low : Nat) : Option Char :=
  if 0xd800 ≤ high ∧ high < 0xdc00 ∧ 0xdc00 ≤ low ∧ low < 0xe000 then
    some (Char.ofNat (0x10000 + (high - 0xd800) * 0x400 + (low - 0xdc00)))
  else none

/-- The content of a string up to its closing quote, and what follows it. -/
def stringContent? : List Char → Option (List Char × List Char)
  | [] => none
  | '"' :: rest => some ([], rest)
  | '\\' :: 'u' :: a :: b :: c :: d :: rest =>
    match hexQuad? a b c d with
    | none => none
    | some n =>
      if n < 0xd800 ∨ 0xe000 ≤ n then
        (stringContent? rest).map fun (cs, r) => (Char.ofNat n :: cs, r)
      else
        match rest with
        | '\\' :: 'u' :: e :: f :: g :: h :: rest' => do
          let low ← hexQuad? e f g h
          let x ← surrogatePair? n low
          let (cs, r) ← stringContent? rest'
          return (x :: cs, r)
        | _ => none
  | '\\' :: e :: rest => do
    let x ← shortEscape? e
    let (cs, r) ← stringContent? rest
    return (x :: cs, r)
  | c :: rest =>
    if c.toNat < 0x20 ∨ c = '\\' then none
    else (stringContent? rest).map fun (cs, r) => (c :: cs, r)

/-- A string in quotes. -/
def stringValue : Parser String := fun c =>
  match c.rest with
  | '"' :: cs =>
    match stringContent? cs with
    | some (content, rest) => .done (String.ofList content) (c.drop (c.rest.length - rest.length))
    | none => .failed (.expecting c "string")
  | _ => .failed (.expecting c "string")

/-! ## Numbers -/

/-- The least magnitude that rounds beyond every double. -/
def doubleLimit : Nat := Nat.pow 2 1024 - Nat.pow 2 970

/-- Whether `mantissa` times ten to the `exponent` is within the range of a double. -/
def fitsDouble (mantissa : Nat) (exponent : Int) : Bool :=
  if mantissa = 0 ∨ exponent ≤ -400 then true
  else if exponent > 400 then false
  else if exponent ≥ 0 then mantissa * Nat.pow 10 exponent.toNat < doubleLimit
  else mantissa < doubleLimit * Nat.pow 10 exponent.natAbs

/-- The digits before the point: one zero, or digits that do not begin with zero. -/
def wholeDigits : Parser (List Char) := fun c =>
  match digits c with
  | .done ('0' :: _ :: _) _ => .failed (.expecting c "number")
  | outcome => outcome

/-- The sign and digits of an exponent. -/
def exponentPart : Parser Int := do
  let _ ← charThat "exponent" fun c => c == 'e' || c == 'E'
  let sign ← maybe (charThat "sign" fun c => c == '+' || c == '-')
  let ds ← digits
  let n : Int := digitsValue ds
  return if sign = some '-' then -n else n

/-- A number. -/
def numberParts : Parser (Bool × List Char × Option (List Char) × Option Int) := do
  let minus ← maybe (char '-')
  let whole ← wholeDigits
  let fraction ← maybe (char '.' *> digits)
  let exponent ← maybe exponentPart
  return (minus.isSome, whole, fraction, exponent)

/-- Whether an integer is kept as its value: it fits into 64 bits and is not a negative zero. -/
def isExact (negative : Bool) (n : Nat) : Bool :=
  if negative then 0 < n && n ≤ 0x8000000000000000 else n < 0x10000000000000000

/-- A number, as its value or as its text. -/
def numberValue : Parser Json := fun c =>
  match numberParts c with
  | .done (negative, whole, fraction, exponent) rest =>
    let n := digitsValue whole
    if fraction.isNone && exponent.isNone && isExact negative n then
      .done (.integer (if negative then -(n : Int) else n)) rest
    else
      let tail := fraction.getD []
      if fitsDouble (digitsValue (whole ++ tail)) (exponent.getD 0 - tail.length) then
        .done (.decimal (String.ofList (c.upTo rest))) rest
      else .aborted (.expecting c "number in range")
  | .failed e => .failed e
  | .aborted e => .aborted e

/-! ## Values -/

/-- White space between tokens. -/
def gap : Parser Unit := do
  let _ ← takeWhile isSpacing

/-- A character with white space behind it. -/
def mark (c : Char) : Parser Unit := do
  let _ ← char c
  gap

/-- A fixed word. -/
def word (text : String) (value : Json) : Parser Json := fun c =>
  if text.toList.isPrefixOf c.rest then .done value (c.drop text.length)
  else .failed (.expecting c text)

/-- A member of an object, for a parser of values. -/
def member (value : Parser Json) : Parser (String × Json) := do
  let name ← stringValue
  gap
  mark ':'
  let v ← value
  return (name, v)

/-- A value with white space behind it, in which arrays and objects are nested less than `depth`
deep. -/
def valueWithin : (depth : Nat) → Parser Json
  | 0 => expected "value"
  | depth + 1 => do
    let scalar :=
      word "null" .null <|> word "true" (.bool true) <|> word "false" (.bool false) <|>
      (.string <$> stringValue) <|> numberValue
    let array := do
      mark '['
      let items ← sepBy (mark ',') (valueWithin depth)
      let _ ← char ']'
      return Json.array items
    let object := do
      mark '\x7b'
      let members ← sepBy (mark ',') (member (valueWithin depth))
      let _ ← char '\x7d'
      return Json.object (members.foldl (fun ms (name, v) => insert name v ms) [])
    let v ← if depth = 0 then scalar else scalar <|> array <|> object
    gap
    return v

/-- The value that a text holds. -/
def parse (text : String) : Option Json :=
  let whole : Parser Json := do
    gap
    let v ← valueWithin 128
    let _ ← endOfText
    return v
  match whole (.ofText text) with
  | .done v _ => some v
  | _ => none

end RobotSource.Json
