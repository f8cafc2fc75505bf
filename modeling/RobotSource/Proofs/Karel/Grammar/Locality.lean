import RobotSource.Proofs.Karel.Grammar.Expression
import RobotSource.Proofs.Parsing.Enclosed
/-!
# Karel tokens within a stretch

The tokens of Karel depend on a stretch of text alone if what follows it begins with a character that
is part of no token (`Margin`).
-/

namespace RobotSource.Karel.Grammar

open Parsing Parsing.Parser

/-- The characters of tokens other than words. -/
def tokenMarks : List Char := ['.', '$', '\'', '+', '-'] ++ marks

/-- What may follow a stretch of tokens: it begins with a character that is part of none. -/
structure Margin (stop : Char → Bool) (P : List Char → Prop) : Prop extends Delimits stop P where
  marks : ∀ x ∈ tokenMarks, stop x = false

variable {stop : Char → Bool} {P : List Char → Prop}

theorem Margin.char (h : Margin stop P) {x : Char} (hx : x ∈ tokenMarks) : Local P (char x) :=
  .char h.toDelimits (h.marks x hx)

/-- A character between a margin and the tokens. -/
theorem Margin.charThat (h : Margin stop P) (what : String) {x y : Char}
    (hx : stop x = false) (hy : stop y = false) :
    Local P (charThat what fun c => c == x || c == y) := by
  refine .charThat h.toDelimits fun z hz => ?_
  rw [Bool.or_eq_false_iff, beq_eq_false_iff_ne, beq_eq_false_iff_ne]
  constructor
  · rintro rfl
    rw [hz] at hx
    cases hx
  · rintro rfl
    rw [hz] at hy
    cases hy

theorem local_number (h : Margin stop P) : Local P number := by
  have hdigits : Local P (takeWhile Char.isDigit) :=
    .takeWhile h.toDelimits fun _ => h.toDelimits.digit
  have hpoint : Local P (char '.') := h.char (by decide)
  have hfraction : Local P (char '.' *> takeWhile Char.isDigit) := hpoint.bind fun _ => hdigits
  have hletter {x : Char} (hx : isNameChar x) : stop x = false := by
    rw [← Bool.not_eq_true]
    intro hstop
    rw [h.name x hstop] at hx
    cases hx
  refine (Local.recognized (.bind (.orElse ?_ ?_) fun _ => .maybe ?_)).named "number"
  · exact (Local.digits h.toDelimits).bind fun _ => hfraction.maybe.bind fun _ => .pure ()
  · exact hpoint.bind fun _ => (Local.digits h.toDelimits).bind fun _ => .pure ()
  · exact (h.charThat _ (hletter (by decide)) (hletter (by decide))).bind fun _ =>
      (h.charThat _ (h.marks _ (by decide)) (h.marks _ (by decide))).maybe.bind fun _ =>
      Local.digits h.toDelimits

theorem local_name (h : Delimits stop P) : Local P name := by
  intro u c d hcommon
  rw [name, name]
  have hword := Local.identifier h u c d hcommon
  generalize identifier c = o, identifier d = o' at hword
  cases hword with
  | done heq hrest =>
    simp only [heq]
    split
    · exact .failed
    · exact .done rfl hrest
  | failed => exact .failed
  | aborted => exact .aborted

theorem local_systemName (h : Margin stop P) : Local P systemName :=
  ((h.char (by decide)).bind fun _ => Local.identifier h.toDelimits).recognized

theorem local_programVariable (h : Margin stop P) : Local P programVariable :=
  (h.char (by decide)).bind fun _ => (Local.identifier h.toDelimits).bind fun _ =>
    (h.char (by decide)).bind fun _ => (Local.identifier h.toDelimits).bind fun _ => .pure _

theorem local_fieldName (h : Margin stop P) : Local P fieldName :=
  (h.char (by decide)).bind fun _ => (local_name h.toDelimits).orElse (local_systemName h)

/-- A string runs up to its closing quote, over characters that no other token contains. -/
theorem local_stringLiteral (h : Encloses stop P) (hquote : stop '\'' = false) :
    Local P stringLiteral := by
  have hclosing := Local.closing h (fun c => !(c == '\'' || c == '\n')) '\'' (by simp) hquote
  have hwhole := (Local.char h.toDelimits hquote).bind fun _ => hclosing.bind fun content =>
    .pure (String.ofList content)
  simp only [bind_assoc, pure_bind] at hwhole
  exact hwhole

/-- The line of a directive. -/
def directiveLine : Parser (String × List Char) := do
  let _ ← char '%'
  let name ← identifier
  let tail ← restOfLine
  return (name, tail)

theorem local_directiveLine (h : Delimits isBreak P) : Local P directiveLine := by
  have hrest : Local P restOfLine := .takeWhile h fun x hx => by rw [hx, Bool.not_true]
  exact (Local.char h (by decide)).bind fun _ => (Local.identifier h).bind fun _ =>
    hrest.bind fun _ => .pure _

/-- A directive is the same on both sides if its line is, and stands at the same place. -/
theorem keeps_directive {S T U : Cursor → Cursor → Prop}
    (hline : Agrees S T directiveLine (· = ·))
    (hS : ∀ c d, S c d → c.position = d.position) (hT : ∀ c d, T c d → c.position = d.position)
    (hblanks : Keeps T U (fun _ _ => True) blanks blanks) :
    Agrees S U directive (· = ·) := by
  have hspanned := hline.spanned (P := (· = ·)) hS hT
  refine hspanned.bind fun x y hxy => hblanks.pass <| .pure ?_
  obtain ⟨⟨word, tail⟩, span⟩ := x
  obtain ⟨y, span'⟩ := y
  obtain ⟨rfl, hstart, hstop⟩ := hxy
  obtain rfl : span = span' := congrArg₂ Span.mk hstart hstop
  rfl

end RobotSource.Karel.Grammar
