import Mathlib.Data.List.DropRight
import RobotSource.Listing.LayoutEdit
import RobotSource.Proofs.Listing.Alignment
import RobotSource.Proofs.Listing.Sections
/-!
# A listing that is laid out stays as it is

The layout works on the sections of a listing (`Sections.laidOut`), and its answer is these sections
written with the breaks of the text (`layoutChars?_eq`). The new sections are where a reader of the
answer finds them, for no line of the new body is a marker (`divides_laidOut`), and the answer is
read as the lines it was written from (`writable_laidOut`). Laying out is done after one time
(`layout?_stable`).

One thing can go wrong at the end of the text. A carriage return there belongs to the last line, but
a line feed that is put behind it turns it into a part of the break.
-/

namespace RobotSource.Listing

open Text List

variable {lines d : List (List Char)} {q row : List Char} {s : Sections}
variable {defaultTab tabSize : Nat} {options : LayoutOptions} {text : List Char}

/-! ## Blank lines at the end -/

theorem dropBlankEnd_append_cons (a : List (List Char)) (h : allBlank q = false) :
    dropBlankEnd (a ++ q :: d) = a ++ q :: dropBlankEnd d := by
  rw [dropBlankEnd, dropBlankEnd, reverse_append, reverse_cons, append_assoc,
    dropWhile_append]
  split
  · rename_i hnil
    simp [isEmpty_iff.1 hnil, h]
  · simp

theorem dropBlankEnd_dropBlankEnd : dropBlankEnd (dropBlankEnd lines) = dropBlankEnd lines :=
  rdropWhile_idempotent allBlank lines

theorem dropBlankEnd_isPrefix : dropBlankEnd lines <+: lines :=
  rdropWhile_prefix allBlank lines

theorem getLast?_dropBlankEnd (h : (dropBlankEnd lines).getLast? = some q) :
    allBlank q = false := by
  have hhead := head?_dropWhile_not allBlank lines.reverse
  rw [dropBlankEnd, getLast?_reverse] at h
  simpa [h] using hhead

/-! ## The rows of a body -/

/-- What a row is made of. -/
theorem mem_layoutRows {depth : Nat} {pairs : List (BodyLine × List Char)}
    (h : row ∈ layoutRows tabSize depth pairs) :
    row = [] ∨ ∃ n code text, row = bodyRow n text ∧ (.code code, text) ∈ pairs := by
  induction pairs generalizing depth with
  | nil => cases h
  | cons p pairs ih =>
    have hrest {depth : Nat} (h : row ∈ layoutRows tabSize depth pairs) :
        row = [] ∨ ∃ n code text, row = bodyRow n text ∧ (.code code, text) ∈ p :: pairs :=
      (ih h).imp_right fun ⟨n, code, text, hrow, hmem⟩ =>
        ⟨n, code, text, hrow, mem_cons_of_mem _ hmem⟩
    obtain ⟨line, text⟩ := p
    cases line with
    | empty =>
      rcases mem_cons.1 h with rfl | h
      · exact .inl rfl
      · exact hrest h
    | code code =>
      rcases mem_cons.1 h with rfl | h
      · exact .inr ⟨_, code, text, rfl, mem_cons_self⟩
      · exact hrest h

/-- A row is empty or the new form of a line of code. -/
theorem mem_layoutBody (h : row ∈ layoutBody tabSize (lines.map BodyLine.ofLine)) :
    row = [] ∨ ∃ n code block b, row = bodyRow n (alignLine block (code, b)) ∧
      ∃ line ∈ lines, BodyLine.ofLine line = .code code := by
  refine (mem_layoutRows h).imp_right ?_
  rintro ⟨n, code, text, rfl, hmem⟩
  obtain ⟨hcode, block, b, rfl⟩ := mem_zip_alignCodes hmem
  obtain ⟨line, hline, hof⟩ := mem_map.1 hcode
  exact ⟨n, code, block, b, rfl, line, hline, hof⟩

/-- No row is a marker. -/
theorem isMarkerLine_row (h : row ∈ layoutBody tabSize (lines.map BodyLine.ofLine)) :
    isMarkerLine "/POS" row = false := by
  rcases mem_layoutBody h with rfl | ⟨n, code, block, b, rfl, -⟩
  · rfl
  · have hstart : trimStart (bodyRow n (alignLine block (code, b))) =
        '1' :: (':' :: blanksOf n ++ alignLine block (code, b) ++ [' ', ';']) := by
      simp [bodyRow, trimStart, show isBlank ' ' = true by decide,
        show isBlank '1' = false by decide]
    rw [isMarkerLine, hstart, flatMap_cons, show upperCase '1' = ['1'] by decide]
    rfl

/-- No row ends with a carriage return. -/
theorem getLast?_row (h : row ∈ layoutBody tabSize (lines.map BodyLine.ofLine)) :
    row.getLast? ≠ some '\r' := by
  rcases mem_layoutBody h with rfl | ⟨n, code, block, b, rfl, -⟩
  · simp
  · rw [bodyRow, getLast?_append_of_ne_nil _ (by simp)]
    simp

/-- Lining up adds no line feed. -/
theorem mem_alignLine {block : List (List Char × Option Nat)} {code : List Char} {b : Option Nat}
    (h : '\n' ∈ alignLine block (code, b)) : '\n' ∈ code := by
  have hstart {cs : List Char} (h : '\n' ∈ trimStart cs) : '\n' ∈ cs :=
    (dropWhile_suffix isBlank).subset h
  have hend {cs : List Char} (h : '\n' ∈ trimEnd cs) : '\n' ∈ cs := dropEndWhile_isPrefix.subset h
  cases b with
  | none => exact h
  | some k =>
    rw [alignLine_some, alignCode] at h
    split at h
    · rename_i s hs
      rw [(caseShape?_eq_some_iff.1 hs).1]
      have hparts : '\n' ∈ trimEnd s.head ∨ '\n' ∈ trim s.value ∨ '\n' ∈ trimStart s.action := by
        simpa [blanksOf, or_assoc] using h
      rcases hparts with h | h | h
      · simp [hend h]
      · simp [hstart (hend h)]
      · simp [hstart h]
    · split at h
      · rename_i action haction
        obtain ⟨word, gap, rest, rfl, -, -, rfl⟩ := elseAction?_eq_some_iff.1 haction
        have hrest : '\n' ∈ trimStart rest := by simpa [blanksOf] using h
        simp [hstart hrest]
      · exact h

/-- Rows have no line feed if the lines have none. -/
theorem feedFree_row (hlines : ∀ l ∈ lines, '\n' ∉ l)
    (h : row ∈ layoutBody tabSize (lines.map BodyLine.ofLine)) : '\n' ∉ row := by
  rcases mem_layoutBody h with rfl | ⟨n, code, block, b, rfl, line, hline, hof⟩
  · exact not_mem_nil
  · intro hmem
    have hcode : '\n' ∈ alignLine block (code, b) := by simpa [bodyRow, blanksOf] using hmem
    exact hlines line hline (mem_of_ofLine hof (mem_alignLine hcode))

/-! ## Sections -/

/-- The sections of a listing, laid out. -/
def Sections.laidOut (defaultTab : Nat) (options : LayoutOptions) (s : Sections) : Sections where
  head := s.head
  body := layoutBody (if options.tabSize = 0 then defaultTab else options.tabSize)
    (s.body.map BodyLine.ofLine)
  tail := if options.trimFinalNewlines then dropBlankEnd s.tail else s.tail

/-- Whether a text gets a break at its end. -/
def FinalBreak (options : LayoutOptions) (text : List Char) : Prop :=
  text.getLast? = some '\n' ∨ options.insertFinalNewline = true

instance : Decidable (FinalBreak options text) :=
  inferInstanceAs (Decidable (_ ∨ _))

theorem dropBlankEnd_tail (h : s.Divides lines) (a : List (List Char)) :
    dropBlankEnd (a ++ s.tail) = a ++ dropBlankEnd s.tail := by
  obtain ⟨q, behind, htail, hq⟩ := h.positions
  have hblank : allBlank q = false := allBlank_of_isMarkerLine (by decide) hq
  have hself : dropBlankEnd (q :: behind) = q :: dropBlankEnd behind :=
    dropBlankEnd_append_cons [] hblank
  rw [htail, dropBlankEnd_append_cons a hblank, hself]

/-- **What the layout answers**: the sections laid out, with the breaks of the text. -/
theorem layoutChars?_eq (h : s.Divides (listingLines text)) :
    layoutChars? defaultTab options text =
      some (joinLines (lineBreakOf text) (s.laidOut defaultTab options).allLines ++
        if FinalBreak options text then lineBreakOf text else []) := by
  rw [layoutChars?, ofLines?_eq_some_iff.2 h]
  simp only [Option.bind_eq_bind, Option.bind_some, dropBlankEnd_tail h, Sections.allLines,
    Sections.laidOut]
  split <;> rfl

/-- Where the layout answers, there are sections to lay out. -/
theorem exists_divides_of_layoutChars? {out : List Char}
    (h : layoutChars? defaultTab options text = some out) :
    ∃ s : Sections, s.Divides (listingLines text) ∧
      out = joinLines (lineBreakOf text) (s.laidOut defaultTab options).allLines ++
        if FinalBreak options text then lineBreakOf text else [] := by
  obtain ⟨s, hs⟩ : ∃ s, Sections.ofLines? (listingLines text) = some s := by
    rw [layoutChars?, Option.bind_eq_bind, Option.bind_eq_some_iff] at h
    exact ⟨h.choose, h.choose_spec.1⟩
  have hdivides : s.Divides (listingLines text) := ofLines?_eq_some_iff.1 hs
  rw [layoutChars?_eq hdivides, Option.some.injEq] at h
  exact ⟨s, hdivides, h.symm⟩

theorem laidOut_laidOut :
    (s.laidOut defaultTab options).laidOut defaultTab options = s.laidOut defaultTab options := by
  simp only [Sections.laidOut, layoutBody_layoutBody, Sections.mk.injEq, true_and]
  split
  · exact dropBlankEnd_dropBlankEnd
  · rfl

/-- The tail keeps its marker. -/
theorem tail_laidOut (h : s.Divides lines) :
    ∃ q behind, (s.laidOut defaultTab options).tail = q :: behind ∧
      isMarkerLine "/POS" q := by
  obtain ⟨q, behind, htail, hq⟩ := h.positions
  have hself : dropBlankEnd (q :: behind) = q :: dropBlankEnd behind :=
    dropBlankEnd_append_cons [] (allBlank_of_isMarkerLine (by decide) hq)
  simp only [Sections.laidOut, htail]
  split
  · exact ⟨q, _, hself, hq⟩
  · exact ⟨q, _, rfl, hq⟩

/-- The tail loses lines at its end at most. -/
theorem tail_laidOut_isPrefix : (s.laidOut defaultTab options).tail <+: s.tail := by
  simp only [Sections.laidOut]
  split
  · exact dropBlankEnd_isPrefix
  · exact prefix_rfl

/-- **The new sections are where a reader of the new lines finds them.** -/
theorem divides_laidOut (h : s.Divides lines) :
    (s.laidOut defaultTab options).Divides (s.laidOut defaultTab options).allLines where
  lines_eq := rfl
  main := h.main
  positions := tail_laidOut h
  noPositions l hl := by
    rcases mem_append.1 hl with hl | hl
    · exact h.noPositions l (mem_append_left _ hl)
    · exact isMarkerLine_row hl

/-! ## Reading the answer -/

/-- A new line is a row or one of the old lines. -/
theorem mem_allLines_laidOut (h : s.Divides lines) {l : List Char}
    (hl : l ∈ (s.laidOut defaultTab options).allLines) :
    l ∈ (s.laidOut defaultTab options).body ∨ l ∈ lines := by
  rw [h.lines_eq]
  simp only [Sections.allLines, mem_append] at hl ⊢
  rcases hl with (hl | hl) | hl
  · exact .inr (.inl (.inl hl))
  · exact .inl hl
  · exact .inr (.inr (tail_laidOut_isPrefix.subset hl))

theorem feedFree_laidOut (h : s.Divides (listingLines text)) :
    ∀ l ∈ (s.laidOut defaultTab options).allLines, '\n' ∉ l := by
  have hbody : ∀ l ∈ s.body, l ∈ listingLines text := by
    intro l hl
    rw [h.lines_eq]
    simp [Sections.allLines, hl]
  intro l hl
  rcases mem_allLines_laidOut h hl with hrow | hl
  · exact feedFree_row (fun l hl => listingLines_feedFree (hbody l hl)) hrow
  · exact listingLines_feedFree hl

/-- The last line stays, unless blank lines are dropped and it is one of them. -/
theorem lastNonempty_laidOut (h : s.Divides (listingLines text))
    (hend : text.getLast? ≠ some '\n') :
    (s.laidOut defaultTab options).allLines.getLast? ≠ some [] := by
  have hnil : (s.laidOut defaultTab options).tail ≠ [] := (divides_laidOut h).tail_ne_nil
  rw [Sections.allLines, getLast?_append_of_ne_nil _ hnil]
  simp only [Sections.laidOut]
  split
  · intro hlast
    cases getLast?_dropBlankEnd hlast
  · obtain ⟨q, behind, htail, hq⟩ := h.positions
    have hlast : (listingLines text).getLast? = s.tail.getLast? := by
      rw [h.lines_eq, Sections.allLines, getLast?_append_of_ne_nil _ h.tail_ne_nil]
    have hne : text ≠ [] := by
      rintro rfl
      have hmem : q ∈ listingLines [] := by
        rw [h.lines_eq]
        simp [Sections.allLines, htail]
      rw [mem_singleton.1 hmem] at hq
      cases hq
    rw [← hlast]
    exact listingLines_lastNonempty hne hend

theorem mem_dropLast_of_isPrefix {a b : List (List Char)} {l : List Char} (h : a <+: b)
    (hl : l ∈ a.dropLast) : l ∈ b.dropLast := by
  obtain ⟨t, rfl⟩ := h
  rcases eq_nil_or_concat' t with rfl | ⟨t, x, rfl⟩
  · rwa [append_nil]
  · rw [← append_assoc, dropLast_concat]
    exact mem_append_left _ (mem_of_mem_dropLast hl)

theorem ends_laidOut (h : s.Divides (listingLines text)) (hbreak : lineBreakOf text = ['\n']) :
    (∀ l ∈ (s.laidOut defaultTab options).allLines.dropLast, l.getLast? ≠ some '\r') ∧
      ∀ l ∈ (s.laidOut defaultTab options).allLines, l.getLast? = some '\r' →
        text.getLast? = some '\r' := by
  obtain ⟨hbefore, hall⟩ := listingLines_ends hbreak
  constructor
  · have hnil : (s.laidOut defaultTab options).tail ≠ [] := (divides_laidOut h).tail_ne_nil
    rw [h.lines_eq, Sections.allLines, dropLast_append_of_ne_nil h.tail_ne_nil] at hbefore
    rw [Sections.allLines, dropLast_append_of_ne_nil hnil]
    intro l hl
    simp only [mem_append] at hl hbefore
    rcases hl with (hl | hl) | hl
    · exact hbefore l (.inl (.inl hl))
    · exact getLast?_row hl
    · exact hbefore l (.inr (mem_dropLast_of_isPrefix tail_laidOut_isPrefix hl))
  · intro l hl hreturn
    rcases mem_allLines_laidOut h hl with hrow | hl
    · exact absurd hreturn (getLast?_row hrow)
    · exact hall l hl hreturn

/-- **The new lines can be told apart again**, except where a break is put behind a carriage
return. -/
theorem writable_laidOut (h : s.Divides (listingLines text))
    (hreturn : ¬ (options.insertFinalNewline = true ∧ text.getLast? = some '\r')) :
    Writable (lineBreakOf text) (s.laidOut defaultTab options).allLines
      (FinalBreak options text) where
  feedFree := feedFree_laidOut h
  many := by
    obtain ⟨before, marker, hhead, -, -⟩ := (divides_laidOut h).main
    obtain ⟨q, behind, htail, -⟩ := tail_laidOut h
    rw [Sections.allLines, hhead, htail]
    simp only [length_append, length_cons]
    omega
  lastNonempty hfinal := lastNonempty_laidOut h fun hend => hfinal (.inl hend)
  ends := by
    by_cases hpaired : hasPairedBreak text
    · exact .inl (if_pos hpaired)
    · have hbreak : lineBreakOf text = ['\n'] := if_neg hpaired
      obtain ⟨hbefore, hall⟩ := ends_laidOut h hbreak
      refine .inr ⟨hbreak, hbefore, fun hfinal l hl hr => ?_⟩
      have htext := hall l (mem_of_getLast? hl) hr
      rcases hfinal with hfeed | hinsert
      · simp [htext] at hfeed
      · exact hreturn ⟨hinsert, htext⟩

/-! ## Stability -/

theorem layoutChars?_stable {out : List Char}
    (hreturn : ¬ (options.insertFinalNewline = true ∧ text.getLast? = some '\r'))
    (h : layoutChars? defaultTab options text = some out) :
    layoutChars? defaultTab options out = some out := by
  obtain ⟨s, hdivides, h⟩ := exists_divides_of_layoutChars? h
  obtain ⟨hlines, hbreak, hfinal⟩ := (writable_laidOut hdivides hreturn).read
  rw [← h] at hlines hbreak hfinal
  have hnew : (s.laidOut defaultTab options).Divides (listingLines out) := by
    rw [hlines]
    exact divides_laidOut hdivides
  have hsame : FinalBreak options out ↔ FinalBreak options text := by
    rw [FinalBreak, hfinal, FinalBreak, or_assoc, or_self]
  rw [layoutChars?_eq hnew, laidOut_laidOut, hbreak]
  simp only [hsame, ← h]

/-- **Laying out a listing is done after one time.** What the layout answers, it leaves as it is,
and no edit is offered for it. The one exception is a text that ends with a carriage return and is
to get a final break. -/
theorem layout?_stable {text out : String}
    (hreturn : ¬ (options.insertFinalNewline = true ∧ text.toList.getLast? = some '\r'))
    (h : layout? defaultTab options text = some out) :
    layout? defaultTab options out = some out ∧ layoutEdits defaultTab options out = [] := by
  obtain ⟨chars, hchars, rfl⟩ := Option.map_eq_some_iff.1 h
  have hstable : layout? defaultTab options (String.ofList chars) = some (String.ofList chars) := by
    rw [layout?, String.toList_ofList, layoutChars?_stable hreturn hchars, Option.map_some]
  refine ⟨hstable, ?_⟩
  rw [layoutEdits, hstable]
  exact if_pos rfl

/-- A select with ragged branches, in a text with paired breaks and a carriage return at its end. -/
theorem layout?_stable_ragged :
    let text := "/MN\r\n1:SELECT R[1] = 1 , JMP LBL[1]\r\n= 22,CALL A;;\r\nelse ,END ;\r\n/POS\r"
    let out := "/MN\r\n   1:  SELECT R[1]=1,JMP LBL[1] ;\r\n" ++
      "   1:             =22,CALL A ;\r\n   1:            ELSE,END ;\r\n/POS\r"
    let options : LayoutOptions := { tabSize := 4, trimFinalNewlines := true }
    ¬ (options.insertFinalNewline = true ∧ text.toList.getLast? = some '\r') ∧
      layout? 2 options text = some out ∧
      layout? 2 options out = some out ∧ layoutEdits 2 options out = [] := by
  intro text out options
  have hreturn : ¬ (options.insertFinalNewline = true ∧ text.toList.getLast? = some '\r') := by
    decide
  have hout : layout? 2 options text = some out := by decide
  exact ⟨hreturn, hout, layout?_stable hreturn hout⟩

end RobotSource.Listing
