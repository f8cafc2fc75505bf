/-!
# JSON values

The messages of an editor and the settings it sends are JSON. An integer within 64 bits is kept as
its value; any other number keeps its text. The members of an object are kept in the order they were
added, each name once.
-/

namespace RobotSource

/-- A JSON value. -/
inductive Json where
  | null
  | bool (value : Bool)
  | integer (value : Int)
  /-- a number with a fraction or an exponent, or beyond 64 bits -/
  | decimal (text : String)
  | string (value : String)
  | array (items : List Json)
  | object (members : List (String × Json))
deriving Repr, Inhabited

namespace Json

/-- The member of a name. -/
def lookup? (name : String) : List (String × Json) → Option Json
  | [] => none
  | (n, v) :: rest => if n == name then some v else lookup? name rest

/-- Adds a member, or replaces the one of that name. -/
def insert (name : String) (value : Json) : List (String × Json) → List (String × Json)
  | [] => [(name, value)]
  | (n, v) :: rest => if n == name then (n, value) :: rest else (n, v) :: insert name value rest

/-- The member of a name, if the value is an object that has it. -/
def get? (j : Json) (name : String) : Option Json :=
  match j with
  | .object members => lookup? name members
  | _ => none

/-- The value of a truth value. -/
def bool? : Json → Option Bool
  | .bool b => some b
  | _ => none

/-- The value of a string. -/
def string? : Json → Option String
  | .string s => some s
  | _ => none

/-- The items of an array. -/
def array? : Json → Option (List Json)
  | .array items => some items
  | _ => none

/-- The value of an integer. -/
def integer? : Json → Option Int
  | .integer n => some n
  | _ => none

/-- The value of an integer within 64 bits with a sign. -/
def int64? : Json → Option Int
  | .integer n => if -0x8000000000000000 ≤ n ∧ n < 0x8000000000000000 then some n else none
  | _ => none

/-- An object of the members that are present. -/
def ofMembers (members : List (String × Option Json)) : Json :=
  .object (members.filterMap fun (name, value) => value.map (name, ·))

/-- A natural number. -/
def nat (n : Nat) : Json := .integer n

/-- The value, or null. -/
def orNull : Option Json → Json
  | some j => j
  | none => .null

end Json

end RobotSource
