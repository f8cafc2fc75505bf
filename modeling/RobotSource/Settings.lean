import RobotSource.Json.Reader
/-!
# Settings

The settings an editor may send. Unknown members are ignored, and a member of the wrong kind leaves
its setting as it is.
-/

namespace RobotSource

/-- The settings. -/
structure Settings where
  /-- spaces for each level of indentation, where a formatting request does not say -/
  tabWidth : Int := 2
  /-- whether program names are completed in lower case -/
  lowerCase : Bool := false
  /-- the folder of pendant listings within a workspace folder -/
  pendantRoot : String := "tp"
  /-- the folder of Karel sources within a workspace folder -/
  karelRoot : String := "karel"
deriving DecidableEq, Repr, Inhabited

namespace Settings

/-- The indentation in force: at least one space. -/
def tabSize (s : Settings) : Nat :=
  if s.tabWidth < 1 then 1 else s.tabWidth.toNat

/-- The value of a member of a section, read by `read`, or else `default`. -/
def member {α : Type} (root : Json) (part name : String) (read : Json → Option α) (default : α) :
    α :=
  (((root.get? part).bind (·.get? name)).bind read).getD default

/-- The settings that a value holds. -/
def ofJson (root : Json) : Settings :=
  let base : Settings := {}
  { tabWidth := member root "format" "tabSize" Json.int64? base.tabWidth
    lowerCase := member root "completions" "lowerCase" Json.bool? base.lowerCase
    pendantRoot := member root "workspace" "tpRoot" Json.string? base.pendantRoot
    karelRoot := member root "workspace" "karelRoot" Json.string? base.karelRoot }

/-- The settings that a text holds, if it is JSON at all. -/
def parse (text : String) : Option Settings :=
  (Json.parse text).map ofJson

end Settings

end RobotSource
