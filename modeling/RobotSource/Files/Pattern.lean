import RobotSource.FilePath
/-!
# Patterns of file names

A pattern is matched against a whole file name: a question mark stands for any character, a star for
any characters, brackets for one character of a set. Letters of ASCII match in any case. Two stars
alone between slashes stand for any number of folders.
-/

namespace RobotSource.Files

/-- An item of a set in brackets. -/
inductive SetItem where
  | single (c : Char)
  | range (first last : Char)
deriving DecidableEq, Repr

/-- A piece of a pattern. -/
inductive PatternToken where
  | char (c : Char)
  | anyChar
  | anySequence
  | oneOf (items : List SetItem)
  | noneOf (items : List SetItem)
deriving DecidableEq, Repr

/-- One part of a path pattern: folders at any depth, or the pattern of one name. -/
inductive PatternPart where
  | anyDepth
  | name (tokens : List PatternToken)
deriving DecidableEq, Repr

/-! ## Reading patterns -/

/-- The items of a set. -/
def setItems : List Char → List SetItem
  | a :: '-' :: b :: rest => .range a b :: setItems rest
  | c :: rest => .single c :: setItems rest
  | [] => []

/-- The content of a bracket up to the closing one, and what follows; the first character always
belongs to the content. -/
def splitBracket? : List Char → Option (List Char × List Char)
  | [] => none
  | c :: rest =>
    match rest.dropWhile (· != ']') with
    | _ :: behind => some (c :: rest.takeWhile (· != ']'), behind)
    | [] => none

theorem splitBracket?_length {cs content behind : List Char}
    (h : splitBracket? cs = some (content, behind)) : behind.length < cs.length := by
  cases cs with
  | nil => simp [splitBracket?] at h
  | cons c rest =>
    simp only [splitBracket?] at h
    split at h
    · rename_i d tail hd
      simp only [Option.some.injEq, Prod.mk.injEq] at h
      have := List.IsSuffix.length_le (List.dropWhile_suffix (l := rest) (· != ']'))
      rw [hd] at this
      simp only [List.length_cons] at this ⊢
      rw [← h.2]
      omega
    · simp at h

/-- The pieces of a name pattern; none if a bracket is not closed or stars stand side by side. -/
def nameTokens? (cs : List Char) : Option (List PatternToken) :=
  match cs with
  | [] => some []
  | '*' :: '*' :: _ => none
  | '*' :: rest => (nameTokens? rest).map (.anySequence :: ·)
  | '?' :: rest => (nameTokens? rest).map (.anyChar :: ·)
  | '[' :: '!' :: rest =>
    match h : splitBracket? rest with
    | some (content, behind) =>
      have _shorter := splitBracket?_length h
      (nameTokens? behind).map (.noneOf (setItems content) :: ·)
    | none => none
  | '[' :: rest =>
    match h : splitBracket? rest with
    | some (content, behind) =>
      have _shorter := splitBracket?_length h
      (nameTokens? behind).map (.oneOf (setItems content) :: ·)
    | none => none
  | c :: rest => (nameTokens? rest).map (.char c :: ·)
termination_by cs.length
decreasing_by all_goals (simp only [List.length_cons]; omega)

/-- One part of a path pattern. -/
def patternPart? (part : List Char) : Option PatternPart :=
  match part with
  | ['*', '*'] => some .anyDepth
  | _ => (nameTokens? part).map .name

/-- The parts of a pattern that begins at the root. -/
def patternParts? (pattern : String) : Option (List PatternPart) :=
  (((FilePath.splitSlashes pattern.toList).filter (!·.isEmpty)).mapM patternPart?)

/-! ## Matching -/

/-- Whether two characters are equal, letters of ASCII in any case. -/
def sameChar (a b : Char) : Bool :=
  a.toLower == b.toLower

/-- Whether a character belongs to an item of a set. A range of letters takes them in any case. -/
def SetItem.matches (item : SetItem) (c : Char) : Bool :=
  match item with
  | .single s => sameChar c s
  | .range first last =>
    (first ≤ c && c ≤ last) ||
      (first.isAlpha && last.isAlpha && c.toNat < 128 &&
        first.toLower ≤ c.toLower && c.toLower ≤ last.toLower)

/-- Whether a name matches the pieces of a pattern. -/
def matchTokens : List PatternToken → List Char → Bool
  | [], name => name.isEmpty
  | .anySequence :: ts, [] => matchTokens ts []
  | .anySequence :: ts, c :: cs => matchTokens ts (c :: cs) || matchTokens (.anySequence :: ts) cs
  | .char p :: ts, c :: cs => sameChar p c && matchTokens ts cs
  | .anyChar :: ts, _ :: cs => matchTokens ts cs
  | .oneOf items :: ts, c :: cs => items.any (·.matches c) && matchTokens ts cs
  | .noneOf items :: ts, c :: cs => !items.any (·.matches c) && matchTokens ts cs
  | _, [] => false
termination_by ts cs => ts.length + cs.length

/-- The name that a pattern without special characters stands for. -/
def literalName? (tokens : List PatternToken) : Option String :=
  (tokens.mapM fun
    | PatternToken.char c => some c
    | _ => none).map String.ofList

end RobotSource.Files
