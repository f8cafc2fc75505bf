import RobotSource.Files.FileTree
import RobotSource.Files.Pattern
/-!
# Finding files by a pattern

The paths that match a pattern, in the order of a walk: the entries of a folder by name, and the
content of a folder in its place. A part without special characters is looked up as it is written;
any other is matched against every entry.
-/

namespace RobotSource.Files

mutual

/-- Everything below a folder in the order of the walk: each entry, and below it its own entries. -/
def walkEntries (above : List String) : List (String × FileTree) → List (List String × FileTree)
  | [] => []
  | (name, t) :: rest =>
    (above ++ [name], t) :: walkBelow (above ++ [name]) t ++ walkEntries above rest

/-- Everything below a file or folder. -/
def walkBelow (above : List String) : FileTree → List (List String × FileTree)
  | .file _ => []
  | .folder entries => walkEntries above entries

end

/-- The places to which a name leads that is written without special characters. -/
def literalSteps (root : FileTree) (place : List String) (name : String) : List (List String) :=
  if name = "." ∨ name = ".." then
    if (root.descend? place).any FileTree.isFolder then
      [if name = "." then place else place.dropLast]
    else []
  else if (root.descend? (place ++ [name])).isSome then [place ++ [name]]
  else []

/-- The places directly below a place whose names match. -/
def stepsBelow (root : FileTree) (place : List String) (tokens : List PatternToken) :
    List (List String) :=
  let entries := ((root.descend? place).map FileTree.entries).getD []
  (entries.filter fun (name, _) => matchTokens tokens name.toList).map fun (name, _) =>
    place ++ [name]

/-- The places at any depth below a place whose names match. -/
def stepsAnywhereBelow (root : FileTree) (place : List String) (tokens : List PatternToken) :
    List (List String) :=
  let below := ((root.descend? place).map (walkBelow place)).getD []
  (below.map (·.1)).filter fun path => path.getLast?.any fun name => matchTokens tokens name.toList

/-- The paths that match the parts of a pattern, from a place in the tree on. -/
def matching (root : FileTree) (place : List String) : List PatternPart → List (List String)
  | [] => [place]
  | .anyDepth :: .name tokens :: rest =>
    (stepsAnywhereBelow root place tokens).flatMap (matching root · rest)
  | .anyDepth :: rest => matching root place rest
  | .name tokens :: rest =>
    match literalName? tokens with
    | some name => (literalSteps root place name).flatMap (matching root · rest)
    | none => (stepsBelow root place tokens).flatMap (matching root · rest)

/-- The paths that match a pattern; a pattern that cannot be read matches nothing. -/
def glob (root : FileTree) (pattern : String) : List String :=
  match patternParts? pattern with
  | some parts => (matching root [] parts).map FilePath.ofParts
  | none => []

end RobotSource.Files
