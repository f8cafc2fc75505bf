import RobotSource.Editor.Answer
import RobotSource.Language
/-!
# Snippets

Each language comes with a table of templates for its common constructs, ordered by key. A template
is offered when its trigger begins with what was typed, in any case.
-/

namespace RobotSource

open Text

/-- A template for a construct. -/
structure Snippet where
  key : String
  /-- the word that is typed for it -/
  trigger : String
  body : List String
  description : List String
deriving DecidableEq, Repr

namespace Snippet

/-- The templates of pendant listings. -/
def pendantTable : List Snippet := [
  ⟨"tp.for", "FOR",
    ["FOR R[$\x7b1:1\x7d]=$\x7b2:1\x7d TO $\x7b3:10\x7d ;", "  $0 ;", "ENDFOR ;"],
    ["Counted loop", "The counter must be a numeric register."]⟩,
  ⟨"tp.if_jump", "IF",
    ["IF $\x7b1:R[1]=1\x7d,JMP LBL[$\x7b2:1\x7d] ;"],
    ["Conditional jump"]⟩,
  ⟨"tp.if_then", "IF",
    ["IF $\x7b1:R[1]=1\x7d THEN ;", "  $0 ;", "ENDIF ;"],
    ["Block IF", "Statements up to ENDIF run when the condition holds."]⟩,
  ⟨"tp.joint", "J",
    ["J P[$\x7b1:1\x7d] $\x7b2:100\x7d% $\x7b3:FINE\x7d ;"],
    ["Joint motion"]⟩,
  ⟨"tp.jump", "JMP",
    ["JMP LBL[$\x7b1:1\x7d] ;"],
    ["Unconditional jump to a label in this program"]⟩,
  ⟨"tp.label", "LBL",
    ["LBL[$\x7b1:1\x7d:$\x7b2:comment\x7d] ;"],
    ["Label definition"]⟩,
  ⟨"tp.linear", "L",
    ["L P[$\x7b1:1\x7d] $\x7b2:500\x7dmm/sec $\x7b3:CNT100\x7d ;"],
    ["Linear motion"]⟩,
  ⟨"tp.message", "MESSAGE",
    ["MESSAGE[$\x7b1:text\x7d] ;"],
    ["Show a message on the user screen"]⟩,
  ⟨"tp.select", "SELECT",
    ["SELECT R[$\x7b1:1\x7d]=$\x7b2:1\x7d,JMP LBL[$\x7b3:1\x7d] ;",
      "       =$\x7b4:2\x7d,JMP LBL[$\x7b5:2\x7d] ;", "       ELSE,JMP LBL[$\x7b6:3\x7d] ;"],
    ["Multi-way branch on a register value"]⟩,
  ⟨"tp.wait_cond", "WAIT",
    ["WAIT $\x7b1:DI[1]=ON\x7d TIMEOUT,LBL[$\x7b2:99\x7d] ;"],
    ["Wait for a condition", "Jumps to the label if $WAITTMOUT expires."]⟩,
  ⟨"tp.wait_time", "WAIT",
    ["WAIT $\x7b1:1.00\x7d(sec) ;"],
    ["Wait a fixed time"]⟩]

/-- The templates of Karel. -/
def karelTable : List Snippet := [
  ⟨"karel.for", "FOR",
    ["FOR $\x7b1:i\x7d = $\x7b2:1\x7d TO $\x7b3:10\x7d DO", "  $0", "ENDFOR"],
    ["Counted loop"]⟩,
  ⟨"karel.if", "IF",
    ["IF $\x7b1:condition\x7d THEN", "  $0", "ENDIF"],
    ["IF block"]⟩,
  ⟨"karel.if_else", "IF",
    ["IF $\x7b1:condition\x7d THEN", "  $2", "ELSE", "  $0", "ENDIF"],
    ["IF block with ELSE"]⟩,
  ⟨"karel.program", "PROGRAM",
    ["PROGRAM $\x7b1:name\x7d", "%COMMENT = '$\x7b2:comment\x7d'", "BEGIN", "  $0",
      "END $\x7b1:name\x7d"],
    ["Program skeleton"]⟩,
  ⟨"karel.repeat", "REPEAT",
    ["REPEAT", "  $0", "UNTIL $\x7b1:condition\x7d"],
    ["Loop until the condition holds", "The body always runs once."]⟩,
  ⟨"karel.routine", "ROUTINE",
    ["ROUTINE $\x7b1:name\x7d($\x7b2:arg\x7d : $\x7b3:INTEGER\x7d)", "BEGIN", "  $0",
      "END $\x7b1:name\x7d"],
    ["Routine with one parameter"]⟩,
  ⟨"karel.select", "SELECT",
    ["SELECT $\x7b1:expr\x7d OF", "  CASE($\x7b2:1\x7d):", "    $3", "  ELSE:", "    $0",
      "ENDSELECT"],
    ["Multi-way branch"]⟩,
  ⟨"karel.structure", "STRUCTURE",
    ["$\x7b1:name_t\x7d = STRUCTURE", "  $\x7b2:field\x7d : $\x7b3:INTEGER\x7d", "ENDSTRUCTURE"],
    ["User structure type, goes in a TYPE section"]⟩,
  ⟨"karel.while", "WHILE",
    ["WHILE $\x7b1:condition\x7d DO", "  $0", "ENDWHILE"],
    ["Loop while the condition holds"]⟩,
  ⟨"karel.write", "WRITE",
    ["WRITE TPDISPLAY($\x7b1:'text'\x7d, CR)"],
    ["Write a line to the teach pendant"]⟩]

/-- The templates of a language. -/
def table : Language → List Snippet
  | .pendant => pendantTable
  | .karel => karelTable

/-- The completion item of a template: the first line of its description says what it is, the others
explain it. -/
def completion (s : Snippet) : Editor.Completion :=
  { label := s.trigger
    kind := .snippet
    detail := s.description.head?
    documentation :=
      match s.description.drop 1 with
      | [] => none
      | lines => some ("\n".intercalate lines)
    insertion := some (.template ("\n".intercalate s.body)) }

/-- The templates whose trigger begins with what was typed. -/
def completions (language : Language) (typed : String) : List Editor.Completion :=
  let typed := (upper typed).toList
  ((table language).filter fun s => typed.isPrefixOf (upper s.trigger).toList).map completion

end Snippet

end RobotSource
