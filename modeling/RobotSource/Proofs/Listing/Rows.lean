import RobotSource.Proofs.Listing.Alignment
/-!
# The rows of a body, line by line

Laying out a body gives a row for every line (`forall₂_rowOf`). A row holds the code of its line, and
in a select block the branch without the white space around its seams (`Lined`). The blanks that line
up a block stand in front of the code and never inside: only the line that opens a block has
something before its equals sign, so it is the one that the others are lined up to.
-/

namespace RobotSource.Listing

open Text List

variable {code code' line : List Char} {codes : List (List Char)} {blocks b : Nat}
variable {open? : Option Nat}

/-- A branch without the white space around its seams. -/
def CaseShape.closed (s : CaseShape) : List Char :=
  trimEnd s.head ++ '=' :: (trim s.value ++ ',' :: trimStart s.action)

/-- What lining up makes of the code of a line, blanks in front left aside. -/
inductive Lined (code : List Char) : List Char → Prop
  | same : Lined code code
  | branch {s : CaseShape} (h : caseShape? code = some s) : Lined code s.closed
  | otherwise {action : List Char} (h : elseAction? code = some action) :
      Lined code (['E', 'L', 'S', 'E', ','] ++ action)

/-- A row that the layout writes for a body line, with code that `K` relates to that of the line. -/
inductive RowOf (K : List Char → List Char → Prop) (line : List Char) : List Char → Prop
  | empty (h : BodyLine.ofLine line = .empty) : RowOf K line []
  | code {code text : List Char} (n : Nat) (h : BodyLine.ofLine line = .code code)
      (htext : Lined code text) (hK : K code text) : RowOf K line (bodyRow n text)

/-! ## Blocks -/

/-- A block is opened with a number that was not given before. -/
theorem le_of_mem_selectBlocks (h : (code, some b) ∈ codes.zip (selectBlocks blocks open? codes))
    (hselect : isSelect code) : blocks ≤ b := by
  induction codes generalizing blocks open? with
  | nil => cases h
  | cons first codes ih =>
    rw [selectBlocks] at h
    split at h
    · rcases mem_cons.1 (zip_cons_cons ▸ h) with heq | h
      · rw [Option.some.inj (Prod.mk.inj heq).2]
      · exact Nat.le_of_succ_le (ih h)
    · rename_i hfirst
      rcases mem_cons.1 (zip_cons_cons ▸ h) with heq | h
      · rw [(Prod.mk.inj heq).1] at hselect
        exact absurd hselect hfirst
      · exact ih h

/-- Only one line opens a block. -/
theorem eq_of_mem_selectBlocks (h : (code, some b) ∈ codes.zip (selectBlocks blocks open? codes))
    (h' : (code', some b) ∈ codes.zip (selectBlocks blocks open? codes))
    (hselect : isSelect code) (hselect' : isSelect code') : code' = code := by
  induction codes generalizing blocks open? with
  | nil => cases h
  | cons first codes ih =>
    rw [selectBlocks] at h h'
    split at h
    · rename_i hfirst
      rw [if_pos hfirst, zip_cons_cons] at h'
      rw [zip_cons_cons] at h
      -- the numbers given behind an opening are greater than its own
      have hbehind {code : List Char} (hselect : isSelect code) (hb : b = blocks)
          (h : (code, some b) ∈ codes.zip (selectBlocks (blocks + 1) (some blocks) codes)) :
          False := by
        have hle := le_of_mem_selectBlocks h hselect
        omega
      rcases mem_cons.1 h with heq | h <;> rcases mem_cons.1 h' with heq' | h'
      · rw [(Prod.mk.inj heq).1, (Prod.mk.inj heq').1]
      · exact (hbehind hselect' (Option.some.inj (Prod.mk.inj heq).2) h').elim
      · exact (hbehind hselect (Option.some.inj (Prod.mk.inj heq').2) h).elim
      · exact ih h h'
    · rename_i hfirst
      rw [if_neg hfirst] at h'
      have hrest {code : List Char} {pairs : List (List Char × Option Nat)} {o : Option Nat}
          (hselect : isSelect code) (h : (code, some b) ∈ (first, o) :: pairs) :
          (code, some b) ∈ pairs := by
        rcases mem_cons.1 h with heq | h
        · rw [(Prod.mk.inj heq).1] at hselect
          exact absurd hselect hfirst
        · exact h
      exact ih (hrest hselect h) (hrest hselect' h')

theorem foldl_max_le {ns : List Nat} {m k : Nat} (hm : m ≤ k) (h : ∀ n ∈ ns, n ≤ k) :
    ns.foldl max m ≤ k := by
  induction ns generalizing m with
  | nil => exact hm
  | cons n ns ih =>
    obtain ⟨hn, hns⟩ := forall_mem_cons.1 h
    exact ih (Nat.max_le.2 ⟨hm, hn⟩) hns

theorem isSelect_of_caseShape {s : CaseShape} (h : caseShape? code = some s) (hne : s.head ≠ []) :
    isSelect code := by
  obtain ⟨hcode, -, hhead⟩ := caseShape?_eq_some_iff.1 h
  obtain ⟨hselect, -⟩ := hhead.resolve_left hne
  rw [hcode, isSelect_append (by simp; decide), hselect]

/-- The line that opens a block is not moved: its own equals sign is the furthest to the right. -/
theorem equals_le {s : CaseShape}
    (hmem : (code, some b) ∈ codes.zip (selectBlocks blocks open? codes))
    (h : caseShape? code = some s) (hne : s.head ≠ []) :
    (selectColumns (blockCases b (codes.zip (selectBlocks blocks open? codes)))).equals ≤
      (trimEnd s.head).length := by
  refine foldl_max_le (Nat.zero_le _) fun n hn => ?_
  obtain ⟨s', hs', rfl⟩ := mem_map.1 hn
  obtain ⟨⟨code', b'⟩, hmem', hcase⟩ := mem_filterMap.1 hs'
  simp only [Option.ite_none_right_eq_some] at hcase
  obtain ⟨rfl, hcase⟩ := hcase
  by_cases hnil : s'.head = []
  · rw [hnil]
    exact Nat.zero_le _
  · have heq : code' = code := eq_of_mem_selectBlocks hmem hmem' (isSelect_of_caseShape h hne)
      (isSelect_of_caseShape hcase hnil)
    rw [heq, h, Option.some.injEq] at hcase
    rw [hcase]

/-- **What is written for a line**: its own code or what lining up makes of it, behind blanks. -/
theorem exists_lined_alignLine {o : Option Nat}
    (hmem : (code, o) ∈ codes.zip (selectBlocks blocks open? codes)) :
    ∃ n text, alignLine (codes.zip (selectBlocks blocks open? codes)) (code, o) =
      blanksOf n ++ text ∧ Lined code text := by
  cases o with
  | none => exact ⟨0, code, rfl, .same⟩
  | some b =>
    obtain ⟨columns, hcolumns⟩ : ∃ columns, columns = selectColumns
        (blockCases b (codes.zip (selectBlocks blocks open? codes))) := ⟨_, rfl⟩
    simp only [alignLine_some, alignCode, ← hcolumns]
    split
    · rename_i s hs
      by_cases hnil : s.head = []
      · refine ⟨columns.equals, s.closed, ?_, .branch hs⟩
        simp [CaseShape.closed, hnil, show trimEnd [] = [] from rfl]
      · have hequals : columns.equals ≤ (trimEnd s.head).length :=
          hcolumns ▸ equals_le hmem hs hnil
        refine ⟨0, s.closed, ?_, .branch hs⟩
        simp [CaseShape.closed, blanksOf, Nat.sub_eq_zero_of_le hequals]
    · split
      · rename_i action haction
        exact ⟨columns.comma - 4, _, append_assoc _ _ _, .otherwise haction⟩
      · exact ⟨0, code, rfl, .same⟩

/-! ## Rows -/

theorem bodyRow_blanksOf_append (m n : Nat) (text : List Char) :
    bodyRow m (blanksOf n ++ text) = bodyRow (m + n) text := by
  simp only [bodyRow, blanksOf, replicate_add, append_assoc]

section
variable {K : List Char → List Char → Prop}

/-- Rows of lines with their codes, lined up before. -/
theorem forall₂_layoutRows {tabSize depth : Nat} {lines : List (List Char)}
    {pairs : List (BodyLine × List Char)}
    (h : List.Forall₂ (fun line p => p.1 = BodyLine.ofLine line ∧ ∃ n text, p.2 = blanksOf n ++ text ∧
      Lined (BodyLine.ofLine line).text text ∧ K (BodyLine.ofLine line).text text) lines pairs) :
    List.Forall₂ (RowOf K) lines (layoutRows tabSize depth pairs) := by
  induction h generalizing depth with
  | nil => exact .nil
  | @cons line p _ _ hp _ ih =>
    obtain ⟨body, written⟩ := p
    obtain ⟨hline, n, text, hwritten, hlined, hK⟩ := hp
    simp only at hline hwritten
    cases body with
    | empty => exact .cons (.empty hline.symm) ih
    | code code =>
      simp only [layoutRows, hwritten, bodyRow_blanksOf_append]
      rw [← hline] at hlined hK
      exact .cons (.code _ hline.symm hlined hK) ih

/-- **A body is laid out line by line.** -/
theorem forall₂_rowOf (tabSize : Nat) {lines : List (List Char)}
    (hcodes : codes = lines.map fun line => (BodyLine.ofLine line).text)
    (hK : ∀ code text n, (code, blanksOf n ++ text) ∈ codes.zip (alignCodes codes) → K code text) :
    List.Forall₂ (RowOf K) lines (layoutBody tabSize (lines.map BodyLine.ofLine)) := by
  have htexts : (lines.map BodyLine.ofLine).map (·.text) = codes := by
    rw [hcodes, map_map]
    rfl
  rw [layoutBody, htexts]
  have hlength : codes.length = lines.length := by simp [hcodes]
  refine forall₂_layoutRows (List.forall₂_iff_get.2 ⟨by simp [length_alignCodes, hlength], ?_⟩)
  intro i hi hi'
  have hcode : i < codes.length := hlength ▸ hi
  have hof : (BodyLine.ofLine lines[i]).text = codes[i] := by simp [hcodes]
  simp only [get_eq_getElem, getElem_zip, getElem_map, true_and, hof]
  have hblocks : i < (selectBlocks 0 none codes).length := by simpa using hcode
  have hcodes' : i < (alignCodes codes).length := by rwa [length_alignCodes]
  have hmem : (codes[i], (selectBlocks 0 none codes)[i]) ∈
      codes.zip (selectBlocks 0 none codes) :=
    mem_iff_getElem.2 ⟨i, by simpa using hcode, by simp⟩
  obtain ⟨n, text, htext, hlined⟩ := exists_lined_alignLine hmem
  have haligned : (alignCodes codes)[i] = blanksOf n ++ text := by
    rw [← htext]
    simp [alignCodes]
  refine ⟨n, text, haligned, hlined, hK codes[i] text n ?_⟩
  rw [← haligned]
  exact mem_iff_getElem.2 ⟨i, by simpa [length_alignCodes] using hcode, by simp⟩

end

end RobotSource.Listing
