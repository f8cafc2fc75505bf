import RobotSource.Text.Blank
/-!
# Paths of files

A path is a text whose parts are divided by slashes. Empty parts and single dots count for nothing,
except that a path may begin with a slash. The extension of a file name is what follows its last
dot, unless that dot is its first character.
-/

namespace RobotSource.FilePath

/-- The pieces of a text between slashes. -/
def splitSlashes : List Char → List (List Char)
  | [] => [[]]
  | c :: cs =>
    if c = '/' then [] :: splitSlashes cs
    else match splitSlashes cs with
      | [] => [[c]]
      | part :: parts => (c :: part) :: parts

/-- Whether a path begins at the root. -/
def isAbsolute (path : String) : Bool :=
  path.toList.head? == some '/'

/-- The parts of a path that name something. A dot counts only at the beginning of a path that does
not begin at the root. -/
def parts (path : String) : List String :=
  let pieces := (splitSlashes path.toList).map String.ofList
  match pieces with
  | "." :: rest => "." :: rest.filter fun p => p ≠ "" ∧ p ≠ "."
  | pieces => pieces.filter fun p => p ≠ "" ∧ p ≠ "."

/-- The path of some parts from the root. -/
def ofParts (parts : List String) : String :=
  "/" ++ "/".intercalate parts

/-- The last part of a path, if it names something. -/
def fileName? (path : String) : Option String :=
  match (parts path).getLast? with
  | some ".." => none
  | some "." => none
  | name => name

/-- The stem and the extension of a file name. -/
def splitExtension (name : String) : String × Option String :=
  let reversed := name.toList.reverse
  let after := reversed.takeWhile (· != '.')
  match reversed.dropWhile (· != '.') with
  | [] => (name, none)
  | [_] => (name, none)
  | _ :: before => (String.ofList before.reverse, some (String.ofList after.reverse))

/-- The file name of a path without its extension. -/
def stem? (path : String) : Option String :=
  (fileName? path).map fun name => (splitExtension name).1

/-- The extension of a path. -/
def extension? (path : String) : Option String :=
  (fileName? path).bind fun name => (splitExtension name).2

/-- A path relative to another; an absolute one stands for itself. -/
def join (base path : String) : String :=
  if isAbsolute path then path
  else if base.toList.getLast? = some '/' then base ++ path
  else base ++ "/" ++ path

/-- The parts of a path behind those of a folder, if it lies there. -/
def relativeTo? (path folder : String) : Option (List String) :=
  let inner := parts path
  let outer := parts folder
  if isAbsolute path == isAbsolute folder && outer.isPrefixOf inner then
    some (inner.drop outer.length)
  else none

end RobotSource.FilePath
