import Mathlib.Data.Option.Basic
import RobotSource.Document
import RobotSource.Proofs.Editor.Place
/-!
# What a change does to a document

A change either cuts the text at two offsets and puts new text between them, or is refused and does
nothing (`Change.cut?`, `Document.applyChange_eq`). Wherever it cuts, the cursor that is kept behind it
is the place behind the new text, named as an editor names it (`placeBehind`). The cursor is worked
out from the place at which the change begins, moved to the character boundary that it is cut at, and
from the new text alone: that the first is the place behind what is kept in front is
`boundary_of_offsetOf?`, and that the second adds what it should is `advance_placeBehind`.
-/

namespace RobotSource

open Text Editor List

namespace Text.Encoding

variable {enc : Encoding} {a b : List Char}

theorem count_append : enc.count (a ++ b) = enc.count a + enc.count b := by
  induction a with
  | nil => rw [nil_append, count, Nat.zero_add]
  | cons c a ih => rw [cons_append, count, count, ih, Nat.add_assoc]

/-- Units are cut off at the end of the line. -/
theorem charsWithin_le_length (enc : Encoding) (cs : List Char) (n : Nat) :
    enc.charsWithin cs n ≤ cs.length := by
  induction cs generalizing n with
  | nil => exact Nat.le_refl 0
  | cons c cs ih =>
    rw [charsWithin, length_cons]
    split
    · exact Nat.zero_le _
    · exact Nat.succ_le_succ (ih _)

end Text.Encoding

namespace Editor

variable {enc : Encoding} {u v text : List Char} {n l : Nat}

/-! ## Rows of a text -/

/-- There is one line more than there are line feeds. -/
theorem length_splitLines (text : List Char) : (splitLines text).length = text.count '\n' + 1 := by
  induction text with
  | nil => rfl
  | cons c text ih =>
    by_cases hc : c = '\n'
    · rw [splitLines, if_pos hc, length_cons, ih, hc, count_cons_self]
    · rw [count_cons_of_ne hc, ← ih, splitLines, if_neg hc]
      cases hsplit : splitLines text with
      | nil => exact absurd hsplit (splitLines_ne_nil text)
      | cons line lines => rfl

/-- Every row begins somewhere: behind as many line feeds, the last of them just before it. -/
theorem exists_lineStart (h : l < (splitLines text).length) :
    ∃ u v, text = u ++ v ∧ u.count '\n' = l ∧ lastLine u = [] := by
  rw [length_splitLines] at h
  induction text generalizing l with
  | nil =>
    obtain rfl : l = 0 := by simpa using h
    exact ⟨[], [], rfl, rfl, rfl⟩
  | cons c text ih =>
    cases l with
    | zero => exact ⟨[], c :: text, rfl, rfl, rfl⟩
    | succ l =>
      by_cases hc : c = '\n'
      · subst hc
        rw [count_cons_self] at h
        obtain ⟨u, v, rfl, hcount, hlast⟩ := ih (Nat.lt_of_succ_lt_succ h)
        exact ⟨'\n' :: u, v, rfl, by rw [count_cons_self, hcount],
          by rw [lastLine_newline_cons, hlast]⟩
      · rw [count_cons_of_ne hc] at h
        obtain ⟨u, v, rfl, hcount, hlast⟩ := ih h
        have hmem : '\n' ∈ u := count_pos_iff.1 (by omega)
        exact ⟨c :: u, v, rfl, by rw [count_cons_of_ne hc, hcount],
          by rw [lastLine_cons_of_mem hmem, hlast]⟩

/-! ## The place behind a text -/

/-- The place behind a text, as an editor names it: its line feeds, and the units since the last of
them. -/
def placeBehind (enc : Encoding) (u : List Char) : Position :=
  ⟨u.count '\n', enc.count (lastLine u)⟩

theorem placeOf_append : placeOf enc (u ++ v) u.length = placeBehind enc u := by
  rw [placeOf, take_left, placeBehind]

theorem not_inReturns_append (h : u.getLast? ≠ some '\r') : ¬ InReturns (u ++ v) u.length := by
  rintro ⟨hlast, -⟩
  rw [take_left] at hlast
  exact h hlast

theorem lastLine_concat (c : Char) :
    lastLine (u ++ [c]) = if c = '\n' then [] else lastLine u ++ [c] := by
  rw [lastLine, reverse_append, reverse_singleton, singleton_append,
    takeWhile_cons]
  by_cases hc : c = '\n'
  · simp [hc]
  · simp [hc, lastLine]

/-- Behind a line feed nothing has been counted; what holds none is counted to the line before it. -/
theorem lastLine_append_of_notMem (h : '\n' ∉ v) : lastLine (u ++ v) = lastLine u ++ v := by
  induction v generalizing u with
  | nil => rw [append_nil, append_nil]
  | cons c v ih =>
    obtain ⟨hc, hv⟩ := not_or.1 (mt mem_cons.2 h)
    rw [append_cons, ih hv, lastLine_concat, if_neg (Ne.symm hc), append_assoc,
      singleton_append]

/-- **Advancing over a text leads from the place behind what stands before it to the place behind
both.** -/
theorem advance_placeBehind : advance enc (placeBehind enc u) v = placeBehind enc (u ++ v) := by
  induction v generalizing u with
  | nil => rw [advance, append_nil]
  | cons c v ih =>
    rw [append_cons, ← ih, advance]
    by_cases hc : c = '\n'
    · simp [hc, placeBehind, lastLine_concat, Encoding.count]
    · simp [hc, placeBehind, lastLine_concat, Encoding.count_append, Encoding.count]

/-! ## Decoded places -/

/-- A place is refused exactly if there is no such line. -/
theorem offsetOf?_eq_none_iff {p : Position} :
    offsetOf? enc text p = none ↔ (splitLines text).length ≤ p.line := by
  obtain ⟨l, k⟩ := p
  rw [offsetOf?]
  dsimp only
  induction splitLines text generalizing l with
  | nil => simp [offsetInLines?]
  | cons line lines ih =>
    cases l with
    | zero => simp [offsetInLines?]
    | succ l => simp [offsetInLines?, ih]

/-- **Where a place cuts the text**: behind the beginning of its row and the part of the row that the
place leaves before it. -/
theorem exists_of_offsetOf? {p : Position} (h : offsetOf? enc text p = some n) :
    ∃ start line, (splitLines text)[p.line]? = some line ∧ start.count '\n' = p.line ∧
      lastLine start = [] ∧ text.take n = start ++ Document.lineBefore enc line p.character ∧
      n = start.length + enc.charsWithin (dropReturns line) p.character ∧ n ≤ text.length := by
  have hrow : p.line < (splitLines text).length := by
    refine Nat.lt_of_not_le fun hle => ?_
    rw [offsetOf?_eq_none_iff.2 hle] at h
    cases h
  obtain ⟨start, rest, rfl, hcount, hlast⟩ := exists_lineStart hrow
  have hline := getElem?_splitLines_append start rest
  rw [hcount, hlast, nil_append] at hline
  obtain ⟨line, hdef⟩ : ∃ line, rest.takeWhile (· != '\n') = line := ⟨_, rfl⟩
  rw [offsetOf?, ← hcount, offsetInLines?_append, hlast, nil_append, hdef, length_nil,
    Nat.sub_zero, Option.some.injEq] at h
  rw [hdef] at hline
  have hprefix : dropReturns line <+: rest :=
    dropEndWhile_isPrefix.trans (hdef ▸ takeWhile_prefix _)
  have hwithin := enc.charsWithin_le_length (dropReturns line) p.character
  refine ⟨start, line, hline, hcount, hlast, ?_, h.symm, ?_⟩
  · obtain ⟨behind, hbehind⟩ := hprefix
    rw [← h, take_length_add_append, Document.lineBefore, ← hbehind,
      take_append_of_le_length hwithin]
  · have := hprefix.length_le
    rw [← h, length_append]
    omega

/-- **The boundary of a place is the place behind the text that it leaves before it.** -/
theorem boundary_of_offsetOf? {p : Position} (h : offsetOf? enc text p = some n) :
    Document.boundary enc text p = placeBehind enc (text.take n) := by
  obtain ⟨start, line, hline, hcount, hlast, htake, -⟩ := exists_of_offsetOf? h
  have hfree : '\n' ∉ Document.lineBefore enc line p.character := fun hmem =>
    notMem_of_mem_splitLines (mem_of_getElem? hline)
      (dropEndWhile_isPrefix.subset (mem_of_mem_take hmem))
  rw [Document.boundary, hline, Option.getD_some, htake, placeBehind,
    lastLine_append_of_notMem hfree, hlast, nil_append, count_append, hcount,
    count_eq_zero_of_not_mem hfree, Nat.add_zero]

end Editor

/-! ## Changes -/

/-- The offsets between which a change replaces the text. There are none if it is refused: one of its
places lies on no line, or they are decoded in the wrong order. -/
def Change.cut? (enc : Encoding) (text : List Char) (change : Change) : Option (Nat × Nat) :=
  match change.range with
  | none => some (0, text.length)
  | some range => do
    let first ← offsetOf? enc text range.start
    let last ← offsetOf? enc text range.stop
    guard (first ≤ last)
    return (first, last)

namespace Change

variable {enc : Encoding} {text : List Char} {change : Change} {first last : Nat}

theorem cut?_of_range {range : Editor.Range} (hrange : change.range = some range) :
    change.cut? enc text = some (first, last) ↔
      offsetOf? enc text range.start = some first ∧ offsetOf? enc text range.stop = some last ∧
        first ≤ last := by
  simp only [cut?, hrange, Option.bind_eq_bind, Option.bind_eq_some_iff, Option.guard_eq_some']
  constructor
  · rintro ⟨a, ha, b, hb, -, hle, hpair⟩
    cases hpair
    exact ⟨ha, hb, hle⟩
  · rintro ⟨ha, hb, hle⟩
    exact ⟨first, ha, last, hb, (), hle, rfl⟩

end Change

namespace Document

variable {enc : Encoding} {d : Document} {change : Change} {first last : Nat}

/-- **A change puts its text between two cuts and leaves the cursor behind it.** -/
theorem applyChange_of_cut? (h : change.cut? enc d.text.toList = some (first, last)) :
    let before := d.text.toList.take first
    d.applyChange enc change = { d with
      text := String.ofList (before ++ change.text.toList ++ d.text.toList.drop last)
      cursor := some (placeBehind enc (before ++ change.text.toList)) } := by
  intro before
  cases hrange : change.range with
  | none =>
    rw [Change.cut?, hrange, Option.some.injEq, Prod.mk.injEq] at h
    obtain ⟨rfl, rfl⟩ := h
    have hcursor : advance enc ⟨0, 0⟩ change.text.toList = placeBehind enc change.text.toList :=
      advance_placeBehind (u := [])
    simp [before, applyChange, hrange, hcursor]
  | some range =>
    obtain ⟨hfirst, hlast, hle⟩ := (Change.cut?_of_range hrange).1 h
    have hreplace : replaceRange? enc d.text.toList range change.text.toList =
        some (before ++ change.text.toList ++ d.text.toList.drop last,
          placeBehind enc (before ++ change.text.toList)) := by
      rw [← advance_placeBehind, ← boundary_of_offsetOf? hfirst]
      simp [replaceRange?, hfirst, hlast, hle, before]
    simp only [applyChange, hrange, hreplace]

/-- **A change that is refused leaves the document as it is.** -/
theorem applyChange_of_refused (h : change.cut? enc d.text.toList = none) :
    d.applyChange enc change = d := by
  cases hrange : change.range with
  | none =>
    rw [Change.cut?, hrange] at h
    cases h
  | some range =>
    rw [Change.cut?, hrange] at h
    simp only [applyChange, hrange]
    split
    · rename_i hreplace
      simp only [replaceRange?, Option.bind_eq_bind, Option.bind_eq_some_iff] at hreplace
      obtain ⟨first, hfirst, last, hlast, _, hle, -⟩ := hreplace
      simp [hfirst, hlast, hle] at h
    · rfl

end Document

end RobotSource
