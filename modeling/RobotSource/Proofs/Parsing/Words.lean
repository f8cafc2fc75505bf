import RobotSource.Proofs.Parsing.Token
/-!
# Words

The keywords and symbols of both languages, and the characters that are read as such. That a word is
`Worded` is found by looking it up among them.
-/

namespace RobotSource.Parsing

variable {α : Type} {a b : α} {as : List α} {rows : List (List α)} {w : String}

/-- The element is in one of the rows. -/
class Among (a : α) (rows : List (List α)) : Prop where
  mem : a ∈ rows.flatten

instance (priority := 100) [h : Among a (as :: rows)] : Among a ((b :: as) :: rows) :=
  ⟨List.mem_cons_of_mem _ h.mem⟩

-- Whole rows are passed over first, so that a word is found along its row only.
instance (priority := 200) [h : Among a rows] : Among a (as :: rows) :=
  ⟨List.mem_append_right _ h.mem⟩

instance (priority := 250) {as₁ as₂ as₃ : List α} [h : Among a rows] :
    Among a (as :: as₁ :: as₂ :: as₃ :: rows) := inferInstance

instance : Among a ((a :: as) :: rows) := ⟨List.mem_cons_self⟩

theorem Among.mem_row [h : Among a [as]] : a ∈ as := by simpa using h.mem

/-- Marks with a colon, or that an equals sign may follow. -/
abbrev openMarks : List String := ["<=", ">=", "<>", "<", ">", "::"]

/-- The keywords in letters only, none of which is a K. -/
abbrev letterWords : List (List String) :=
  [["FOR", "TO", "DOWNTO", "DO", "ENDFOR", "IF", "THEN", "ELSE", "ENDIF"],
    ["END", "PROGRAM", "BEGIN", "ROUTINE", "FROM", "CONST", "TYPE"],
    ["SELECT", "CASE", "ENDSELECT", "WHILE", "ENDWHILE", "REPEAT", "UNTIL"],
    ["NOT", "DIV", "MOD", "AND", "OR", "TRUE", "FALSE", "ON", "OFF"],
    ["WAIT", "TIMEOUT", "DELAY", "PAUSE", "ABORT", "RETURN", "GOTO", "GO", "READ", "WRITE"],
    ["LBL", "JMP", "CALL", "RUN", "CONDITION", "MESSAGE", "J", "L", "C", "A"],
    ["FINE", "CNT", "CR", "ACC", "Offset", "INC"],
    ["VAR", "IN", "GROUP", "ARRAY", "OF", "STRUCTURE", "ENDSTRUCTURE", "PATH", "PATHHEADER"],
    ["NODEDATA", "STRING"]]

/-- The other symbols, and all keywords. -/
abbrev plainWords : List (List String) :=
  [",", "=", "(", ")", "[", "]"] :: ["!", "//", "+", "-", "*", "/"] ::
    ["(sec)", "%", "mm/sec", "cm/min", "inch/min", "deg/sec", "msec", "sec", "max_speed"] ::
    ["SKIP", "SkipJump", "Skip", "Tool_Offset", "/PROG", "/MN", "/POS", "/END"] :: letterWords

/-- A word that is not empty and has no line break in it. -/
class Worded (w : String) : Prop where
  fact : w.toList ≠ [] ∧ isApart isBreak w.toList = true

instance [h : Among w (openMarks :: plainWords)] : Worded w :=
  ⟨(by decide +kernel : ∀ w ∈ (openMarks :: plainWords).flatten,
    w.toList ≠ [] ∧ isApart isBreak w.toList = true) w h.mem⟩

/-- The characters that begin a string, a system variable or a comment. -/
abbrev quotes : List Char := [':', '$', '\'', '"']

/-- The other characters that are read for themselves. -/
abbrev signs : List Char := ['[', ']', '(', ')', '.', ';']

end RobotSource.Parsing
