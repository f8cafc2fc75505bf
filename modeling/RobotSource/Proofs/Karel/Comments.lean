import RobotSource.Proofs.Karel.Grammar.Remarks
/-!
# Comments in Karel programs

A comment may be put behind any line of a program that holds no directive. Wherever the line ends,
in the middle of a declaration, of a statement or of an expression, and whatever the comment says, the
program stays the same in every part and every place, but for its header, which is made of comments,
and for the place where it ends (`Program.parse_appendToLine`).
-/

namespace RobotSource

open Parsing Text List

/-! ## Lines with something behind them -/

namespace Text

variable {text tail l t : List Char} {row : Nat}

/-- The line with something put behind it, before the carriage return of its break. -/
def appendTo (tail line : List Char) : List Char :=
  if line.getLast? = some '\r' then line.dropLast ++ (tail ++ ['\r']) else line ++ tail

/-- The text with something put behind one of its lines. Lines are counted from zero. -/
def appendToLine (row : Nat) (tail text : List Char) : List Char :=
  joinLines ['\n'] ((splitLines text).modify row (appendTo tail))

theorem appendTo_concat_return (tail l : List Char) :
    appendTo tail (l ++ ['\r']) = l ++ (tail ++ ['\r']) := by
  simp [appendTo]

theorem appendTo_of_notMem (h : '\r' ∉ l) : appendTo tail l = l ++ tail :=
  if_neg fun hlast => h (mem_of_getLast? hlast)

theorem appendToLine_of_notMem (h : '\n' ∉ l) : appendToLine 0 tail l = appendTo tail l := by
  rw [appendToLine, splitLines_of_notMem h]
  rfl

theorem appendToLine_zero (h : '\n' ∉ l) :
    appendToLine 0 tail (l ++ '\n' :: t) = appendTo tail l ++ '\n' :: t := by
  rw [appendToLine, splitLines_append_newline h, modify_zero_cons,
    joinLines_cons (splitLines_ne_nil t), joinLines_splitLines, singleton_append]

theorem appendToLine_succ (h : '\n' ∉ l) :
    appendToLine (row + 1) tail (l ++ '\n' :: t) = l ++ '\n' :: appendToLine row tail t := by
  have hne : (splitLines t).modify row (appendTo tail) ≠ [] := by simpa using splitLines_ne_nil t
  rw [appendToLine, splitLines_append_newline h, modify_succ_cons, joinLines_cons hne,
    singleton_append, appendToLine]

/-- The first line is all of the text, or has a line feed behind it. -/
theorem exists_first_line (text tail : List Char) :
    ∃ l v, text = l ++ v ∧ '\n' ∉ l ∧ (v = [] ∨ ∃ t, v = '\n' :: t) ∧
      appendToLine 0 tail text = appendTo tail l ++ v := by
  by_cases hfeed : '\n' ∈ text
  · obtain ⟨l, t, rfl, hl⟩ := eq_append_cons_of_mem hfeed
    exact ⟨l, '\n' :: t, rfl, hl, .inr ⟨t, rfl⟩, appendToLine_zero hl⟩
  · refine ⟨text, [], by simp, hfeed, .inl rfl, ?_⟩
    rw [appendToLine_of_notMem hfeed, append_nil]

/-- A text has no line behind its last one. -/
theorem appendToLine_of_length_le (h : (splitLines text).length ≤ row) :
    appendToLine row tail text = text := by
  rw [appendToLine, modify_eq_self h, joinLines_splitLines]

end Text

namespace Karel

variable {text u note : List Char} {row : Nat}

/-- Behind a line, a text is cut before the break. -/
theorem exists_cut_of_line (hpaired : returnsPaired text)
    (hrow : row < (splitLines text).length) (tail : List Char) :
    ∃ u s, text = u ++ s ∧ appendToLine row tail text = u ++ (tail ++ s) ∧ LineOver s ∧
      returnsPaired u ∧ ∀ p : Position, (p.afterAll u).line = p.line + row := by
  induction row generalizing text with
  | zero =>
    obtain ⟨l, v, rfl, hl, hv, htail⟩ := exists_first_line text tail
    obtain ⟨w, hw, hend⟩ := exists_line_of_returnsPaired hpaired hl
    have hline (p : Position) : (p.afterAll w).line = p.line + 0 := by
      rw [Position.afterAll_of_notMem (notMem_of_isBreak_eq_false hw)]
      rfl
    have hreturn : '\r' ∉ w := fun hmem => absurd (hw _ hmem) (by decide)
    rcases hend with rfl | ⟨rfl, hhead⟩
    · refine ⟨l, v, rfl, ?_, ?_, returnsPaired_of_forall hw, hline⟩
      · rw [htail, appendTo_of_notMem hreturn, append_assoc]
      · rcases hv with rfl | ⟨t, rfl⟩
        · exact .inl rfl
        · exact .inr (breaks_feed t)
    · -- the carriage return stays with the line feed
      refine ⟨w, '\r' :: v, by simp, ?_, ?_, returnsPaired_of_forall hw, hline⟩
      · rw [htail, appendTo_concat_return]
        simp
      · obtain ⟨t, rfl⟩ : ∃ t, v = '\n' :: t := hv.resolve_left (by rintro rfl; cases hhead)
        exact .inr ⟨['\r', '\n'], t, .inr rfl, rfl⟩
  | succ row ih =>
    have hfeed : '\n' ∈ text := by
      by_contra hfeed
      rw [splitLines_of_notMem hfeed] at hrow
      simp at hrow
    obtain ⟨l, t, rfl, hl⟩ := eq_append_cons_of_mem hfeed
    rw [splitLines_append_newline hl, length_cons] at hrow
    rw [returnsPaired_append_newline, Bool.and_eq_true] at hpaired
    obtain ⟨u, s, rfl, htail, hs, hu, hline⟩ := ih hpaired.2 (by omega)
    refine ⟨l ++ '\n' :: u, s, by simp, ?_, hs, ?_, fun p => ?_⟩
    · rw [appendToLine_succ hl, htail, append_assoc, cons_append]
    · rw [returnsPaired_append_newline, hpaired.1, hu]
      rfl
    · rw [Position.afterAll_append, Position.afterAll_of_notMem hl, Position.afterAll_cons, hline]
      simp only [Position.after, if_true]
      omega

/-! ## Programs with a comment behind a line -/

/-- The scan for the end of the code is outside of strings where a line ends without a directive. -/
theorem quotedAfter_line {text : String} {p : Program} {s : List Char}
    (hpaired : returnsPaired text.toList) (h : Program.parse text = .ok p)
    (htext : text.toList = u ++ s) (hu : returnsPaired u) (hs : LineOver s)
    (hline : ∀ e ∈ p.directives, e.span.start.line ≠ (Position.first.afterAll u).line) :
    quotedAfter false false u = false := by
  obtain ⟨hstarts, hstray⟩ := directiveStarts_of_parse hpaired h
  have hstarts' : ∀ q ∈ directiveStarts .first (pieces text.toList),
      q.line ≠ (Position.first.afterAll u).line := by
    rw [hstarts]
    exact forall_mem_map.2 hline
  exact quotedAfter_of_pieces hstray htext hu hs (by simp) hstarts'

/-- At their beginnings, a program and the same with a comment stand before the comment. -/
theorem exists_ahead_of_parse {text : String} {p : Program}
    (hpaired : returnsPaired text.toList) (h : Program.parse text = .ok p)
    (hrow : row < (splitLines text.toList).length)
    (hdirectives : ∀ e ∈ p.directives, e.span.start.line ≠ row + 1) (note : List Char) :
    ∃ s u, LineOver s ∧ Grammar.Ahead s note (row + 1) u (.ofText text)
      (.ofText (String.ofList (appendToLine row (remark note) text.toList))) := by
  obtain ⟨u, s, htext, hremark, hs, hu, hline⟩ := exists_cut_of_line hpaired hrow (remark note)
  have hline' : (Position.first.afterAll u).line = row + 1 := by
    rw [hline, Position.first, Nat.add_comm]
  refine ⟨s, u, hs, htext, ?_, rfl, hline', hu, ?_⟩
  · rw [Cursor.ofText, String.toList_ofList, hremark]
  · exact quotedAfter_line hpaired h htext hu hs (hline' ▸ hdirectives)

/-- **Comments are of no account.** Behind a line without a directive, a comment changes no more of
a program than its header and the place where it ends. -/
theorem Program.parse_appendToLine {text : String} {p : Program}
    (hpaired : returnsPaired text.toList = true) (h : Program.parse text = .ok p)
    (hnote : ∀ y ∈ note, y ≠ '\n' ∧ y ≠ '\r')
    (hdirectives : ∀ e ∈ p.directives, e.span.start.line ≠ row + 1) :
    ∃ q, Program.parse (String.ofList (appendToLine row (remark note) text.toList)) = .ok q ∧
      q = { p with header := q.header, span := { p.span with stop := q.span.stop } } := by
  rcases Nat.lt_or_ge row (splitLines text.toList).length with hrow | hrow
  · obtain ⟨s, u, hs, hahead⟩ := exists_ahead_of_parse hpaired h hrow hdirectives note
    have hbreak : ∀ y ∈ note, isBreak y = false := fun y hy => by simp [isBreak, hnote y hy]
    obtain ⟨r, hdone⟩ := Parser.run_eq_ok.1 h
    have hkeeps := Grammar.keeps_program_remark ⟨hs, hbreak⟩ _ _ ⟨u, hahead⟩
    rw [hdone] at hkeeps
    obtain ⟨q, d, hdone', hq, -⟩ := hkeeps.exists_done
    exact ⟨q, Parser.run_eq_ok.2 ⟨d, hdone'⟩, hq hdirectives⟩
  · refine ⟨p, ?_, rfl⟩
    rw [appendToLine_of_length_le hrow, String.ofList_toList, h]

/-- A comment with quotes and dashes, within an expression and behind a string with dashes; the
directive of another line has a single quote. -/
theorem Program.parse_appendToLine_expression :
    let text := "PROGRAM p\r\n%DELAY it's\r\nBEGIN\r\n  a = 'x--' +\r\n  b\r\nEND p\r\n"
    let commented :=
      "PROGRAM p\r\n%DELAY it's\r\nBEGIN\r\n  a = 'x--' + --don't -- '\r\n  b\r\nEND p\r\n"
    returnsPaired text.toList = true ∧
      String.ofList (appendToLine 3 (remark "don't -- '".toList) text.toList) = commented ∧
      ∃ p q, Program.parse text = .ok p ∧ (∀ e ∈ p.directives, e.span.start.line ≠ 4) ∧
        Program.parse commented = .ok q ∧
        q = { p with header := q.header, span := { p.span with stop := q.span.stop } } := by
  intro text commented
  have hpaired : returnsPaired text.toList := by decide
  have hcommented : String.ofList (appendToLine 3 (remark "don't -- '".toList) text.toList) =
      commented := by decide
  have hlines : (Program.parse text).toOption.map (·.directives.map (·.span.start.line)) =
      some [2] := by decide +kernel
  cases hparse : Program.parse text with
  | error e => simp [hparse, Except.toOption] at hlines
  | ok p =>
    have hdirectives : ∀ e ∈ p.directives, e.span.start.line ≠ 3 + 1 := by
      rw [hparse] at hlines
      have hmap : p.directives.map (·.span.start.line) = [2] := Option.some.inj hlines
      intro e he
      have hmem := mem_map_of_mem (f := (·.span.start.line)) he
      rw [hmap, mem_singleton] at hmem
      omega
    have hnote : ∀ y ∈ "don't -- '".toList, y ≠ '\n' ∧ y ≠ '\r' := by simp
    obtain ⟨q, hq, heq⟩ := Program.parse_appendToLine hpaired hparse hnote hdirectives
    exact ⟨hpaired, hcommented, p, q, rfl, hdirectives, hcommented ▸ hq, heq⟩

end Karel

end RobotSource
