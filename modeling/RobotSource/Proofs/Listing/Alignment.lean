import Mathlib.Data.List.Forall2
import RobotSource.Proofs.Listing.BodyLine
/-!
# Lining up what is lined up already

Lining up the branches of a select changes the white space in them. What the layout reads off a
line is not touched by that (`SameShape`): whether the line opens or continues a select, how wide
the parts of a branch are, how deep the line stands, and what it is lined up to. So the blocks and
columns of the new lines are the old ones, and laying out a body a second time gives the same rows
(`layoutBody_layoutBody`).
-/

namespace RobotSource.Listing

open Text List

variable {code : List Char} {columns : SelectColumns} {s : CaseShape}
variable {action : List Char}

/-! ## One line -/

/-- What counts of a branch when columns are chosen: the widths of what stands before its equals
sign and of its value. -/
def CaseShape.widths (s : CaseShape) : Nat × Nat :=
  ((trimEnd s.head).length, (trim s.value).length)

/-- The two codes are the same to everything that the layout asks of a line. -/
structure SameShape (old new : List Char) : Prop where
  select : isSelect new = isSelect old
  continues : continuesSelect new = continuesSelect old
  widths : (caseShape? new).map CaseShape.widths = (caseShape? old).map CaseShape.widths
  align (columns : SelectColumns) : alignCode columns new = alignCode columns old
  depths (depth : Nat) : depths depth new = depths depth old
  margin : margin new = margin old

theorem SameShape.refl (code : List Char) : SameShape code code :=
  ⟨rfl, rfl, rfl, fun _ => rfl, fun _ => rfl, rfl⟩

/-- A branch after lining up. -/
def CaseShape.lineUp (equals : Nat) (s : CaseShape) : CaseShape where
  head := if s.head = [] then []
    else trimEnd s.head ++ blanksOf (equals - (trimEnd s.head).length)
  value := trim s.value
  action := trimStart s.action

theorem trimEnd_lineUp (equals : Nat) : trimEnd (s.lineUp equals).head = trimEnd s.head := by
  rw [CaseShape.lineUp]
  split
  · rename_i h
    rw [h]
  · rw [trimEnd_append_of_all fun _ => isBlank_of_mem_blanksOf, trimEnd_trimEnd]

theorem isSelect_trimEnd (head : List Char) : isSelect (trimEnd head) = isSelect head := by
  obtain ⟨t, ht, hblank⟩ := exists_eq_dropEndWhile_append isBlank head
  conv_rhs => rw [ht]
  refine (isSelect_append fun x hx => isWordCharacter_of_isBlank (hblank x ?_)).symm
  exact mem_of_mem_head? hx

theorem isSelect_lineUp (equals : Nat) : isSelect (s.lineUp equals).head = isSelect s.head := by
  rw [← isSelect_trimEnd, trimEnd_lineUp, isSelect_trimEnd]

theorem getLast?_comma_trimStart {before : List Char} {c : Char}
    (h : Trimmed (before ++ ',' :: action)) (hc : (',' :: trimStart action).getLast? = some c) :
    isBlank c = false := by
  cases hrest : trimStart action with
  | nil =>
    rw [hrest] at hc
    cases hc
    decide
  | cons x rest =>
    rw [hrest, getLast?_cons_cons, ← hrest] at hc
    refine h.last c (getLast?_of_suffix ?_ hc)
    exact (dropWhile_suffix isBlank).trans
      ((suffix_cons _ _).trans (suffix_append _ _))

/-- A branch that was lined up, without the blanks in front of it. -/
theorem trim_alignCode (htrim : Trimmed code) (h : caseShape? code = some s) :
    trim (alignCode columns code) = (s.lineUp columns.equals).head ++
      '=' :: ((s.lineUp columns.equals).value ++ ',' :: (s.lineUp columns.equals).action) := by
  obtain ⟨hcode, -, hhead⟩ := caseShape?_eq_some_iff.1 h
  have hlast {before : List Char} {c : Char}
      (hc : (before ++ '=' :: (trim s.value ++ ',' :: trimStart s.action)).getLast? = some c) :
      isBlank c = false := by
    rw [← cons_append, ← append_assoc,
      getLast?_append_of_ne_nil _ (cons_ne_nil _ _)] at hc
    rw [hcode, ← cons_append, ← append_assoc] at htrim
    exact getLast?_comma_trimStart htrim hc
  simp only [alignCode, h, append_assoc, cons_append, CaseShape.lineUp]
  rcases hhead with hnil | ⟨hselect, -⟩
  · -- nothing stands before the equals sign, so the blanks in front of it fall away
    have htrimmed : Trimmed ('=' :: (trim s.value ++ ',' :: trimStart s.action)) :=
      ⟨by simp; decide, fun _ => @hlast [] _⟩
    rw [hnil, if_pos rfl]
    exact (trim_append_left fun _ => isBlank_of_mem_blanksOf).trans htrimmed.trim_eq
  · -- the select word stands in front, and its first letter is no blank
    obtain ⟨x, rest, hx, -⟩ := exists_cons_of_isSelect ((isSelect_trimEnd s.head).trans hselect)
    have hfirst : isBlank x = false := by
      refine htrim.head x (head?_of_isPrefix (a := trimEnd s.head) ?_ (by rw [hx]; rfl))
      rw [hcode]
      exact dropEndWhile_isPrefix.trans (prefix_append _ _)
    have hne : s.head ≠ [] := by
      rintro hnil
      rw [hnil] at hselect
      cases hselect
    rw [if_neg hne, append_assoc]
    refine Trimmed.trim_eq ⟨?_, ?_⟩
    · rw [hx]
      simpa using hfirst
    · rw [← append_assoc]
      exact fun _ => hlast

/-- Read again, a branch that was lined up has the parts it was given. -/
theorem caseShape?_alignCode (htrim : Trimmed code) (h : caseShape? code = some s) :
    caseShape? (trim (alignCode columns code)) = some (s.lineUp columns.equals) := by
  obtain ⟨-, hvalue, hhead⟩ := caseShape?_eq_some_iff.1 h
  refine caseShape?_eq_some_iff.2 ⟨trim_alignCode htrim h, ?_, ?_⟩
  · exact fun hmem =>
      hvalue ((dropWhile_suffix isBlank).subset (dropEndWhile_isPrefix.subset hmem))
  · refine hhead.imp (fun hnil => if_pos hnil) fun ⟨hselect, hmarks⟩ => ?_
    refine ⟨(isSelect_lineUp _).trans hselect, fun x hx => ?_⟩
    rw [CaseShape.lineUp] at hx
    split at hx
    · cases hx
    · rcases mem_append.1 hx with hx | hx
      · exact hmarks x (dropEndWhile_isPrefix.subset hx)
      · rw [blanksOf, mem_replicate] at hx
        rw [hx.2]
        decide

/-- An `ELSE,` branch that was lined up, without the blanks in front of it. -/
theorem trim_alignCode_else (htrim : Trimmed code) (hcase : caseShape? code = none)
    (h : elseAction? code = some action) :
    trim (alignCode columns code) = ['E', 'L', 'S', 'E', ','] ++ action := by
  obtain ⟨word, gap, rest, rfl, -, -, rfl⟩ := elseAction?_eq_some_iff.1 h
  simp only [alignCode, hcase, h]
  rw [append_assoc, trim_append_left fun _ => isBlank_of_mem_blanksOf]
  refine Trimmed.trim_eq ⟨by simp; decide, fun c hc => ?_⟩
  exact getLast?_comma_trimStart htrim (by simpa using hc)

/-- Branches are of the same shape if their parts are the same when white space is left aside. -/
theorem sameShape_of_caseShape {old new : List Char} {s' : CaseShape} (h : caseShape? old = some s)
    (h' : caseShape? new = some s') (hselect : isSelect new = isSelect old)
    (hhead : trimEnd s'.head = trimEnd s.head) (hvalue : trim s'.value = trim s.value)
    (haction : trimStart s'.action = trimStart s.action) : SameShape old new where
  select := hselect
  continues := by simp [continuesSelect, h, h']
  widths := by simp [h, h', CaseShape.widths, hhead, hvalue]
  align columns := by simp only [alignCode, h, h', hhead, hvalue, haction]
  depths depth := by
    rw [(depths_of_caseShape h depth).1, (depths_of_caseShape h' depth).1]
  margin := by rw [(depths_of_caseShape h 0).2, (depths_of_caseShape h' 0).2]

theorem sameShape_of_elseAction {old new : List Char} (hcase : caseShape? old = none)
    (hcase' : caseShape? new = none) (h : elseAction? old = some action)
    (h' : elseAction? new = some action) : SameShape old new where
  select := by rw [isSelect_of_elseAction h, isSelect_of_elseAction h']
  continues := by simp [continuesSelect, h, h']
  widths := by rw [hcase, hcase']
  align columns := by simp only [alignCode, hcase, hcase', h, h']
  depths depth := by
    rw [(depths_of_elseAction h depth).1, (depths_of_elseAction h' depth).1]
  margin := by rw [(depths_of_elseAction h 0).2, (depths_of_elseAction h' 0).2]

/-- **Lining up a line keeps its shape.** -/
theorem sameShape_alignCode (htrim : Trimmed code) :
    SameShape code (trim (alignCode columns code)) := by
  cases hcase : caseShape? code with
  | some s =>
    have hselect : isSelect (trim (alignCode columns code)) = isSelect code := by
      have hmark (t : List Char) : ∀ x, ('=' :: t).head? = some x → isWordCharacter x = false := by
        simp
        decide
      conv_rhs => rw [(caseShape?_eq_some_iff.1 hcase).1, isSelect_append (hmark _)]
      rw [trim_alignCode htrim hcase, isSelect_append (hmark _), isSelect_lineUp]
    exact sameShape_of_caseShape hcase (caseShape?_alignCode htrim hcase) hselect
      (trimEnd_lineUp _) trimmed_trim.trim_eq trimStart_trimStart
  | none =>
    cases helse : elseAction? code with
    | some action =>
      have hnew : trim (alignCode columns code) = ['E', 'L', 'S', 'E', ','] ++ action :=
        trim_alignCode_else htrim hcase helse
      have haction : elseAction? (['E', 'L', 'S', 'E', ','] ++ action) = some action := by
        obtain ⟨-, -, rest, -, -, -, rfl⟩ := elseAction?_eq_some_iff.1 helse
        exact congrArg some trimStart_trimStart
      rw [hnew]
      exact sameShape_of_elseAction hcase rfl helse haction
    | none =>
      have hsame : trim (alignCode columns code) = code := by
        simp only [alignCode, hcase, helse, htrim.trim_eq]
      rw [hsame]
      exact .refl code

/-! ## Whole bodies -/

variable {codes new : List (List Char)} {lines : List (List Char × Option Nat)}

@[simp] theorem length_selectBlocks (blocks : Nat) (open? : Option Nat)
    (codes : List (List Char)) : (selectBlocks blocks open? codes).length = codes.length := by
  induction codes generalizing blocks open? with
  | nil => rfl
  | cons code codes ih =>
    rw [selectBlocks]
    split <;> simp [ih]

/-- Lines of the same shape belong to the same blocks. -/
theorem selectBlocks_congr (h : List.Forall₂ SameShape codes new) (blocks : Nat)
    (open? : Option Nat) : selectBlocks blocks open? new = selectBlocks blocks open? codes := by
  induction h generalizing blocks open? with
  | nil => rfl
  | cons hline _ ih => simp only [selectBlocks, hline.select, hline.continues, ih]

/-- The columns of a block are chosen by the widths in it. -/
theorem selectColumns_congr {cases cases' : List CaseShape}
    (h : cases'.map CaseShape.widths = cases.map CaseShape.widths) :
    selectColumns cases' = selectColumns cases := by
  have hread (f : Nat × Nat → Nat) (cases : List CaseShape) :
      cases.map (fun s => f s.widths) = (cases.map CaseShape.widths).map f := by simp
  have hhead : cases'.map (fun s => (trimEnd s.head).length) =
      cases.map fun s => (trimEnd s.head).length :=
    (hread Prod.fst cases').trans (h ▸ (hread Prod.fst cases).symm)
  have hvalue (equals : Nat) : cases'.map (fun s => equals + 1 + (trim s.value).length) =
      cases.map fun s => equals + 1 + (trim s.value).length :=
    (hread (fun w => equals + 1 + w.2) cases').trans
      (h ▸ (hread (fun w => equals + 1 + w.2) cases).symm)
  rw [selectColumns, selectColumns, hhead, hvalue]

theorem alignLine_some (block : Nat) : alignLine lines (code, some block) =
    alignCode (selectColumns (blockCases block lines)) code := rfl

/-- A line of code as it is read after lining up. -/
theorem sameShape_alignLine {b : Option Nat} (htrim : Trimmed code) :
    SameShape code (trim (alignLine lines (code, b))) := by
  cases b with
  | none =>
    rw [alignLine, htrim.trim_eq]
    exact .refl code
  | some block => exact sameShape_alignCode htrim

/-- The columns of the blocks are still the same after lining up. -/
theorem columns_alignLine (htrim : ∀ line ∈ lines, Trimmed line.1) (block : Nat) :
    selectColumns (blockCases block (lines.map fun l => (trim (alignLine lines l), l.2))) =
      selectColumns (blockCases block lines) := by
  refine selectColumns_congr ?_
  rw [blockCases, blockCases, filterMap_map, map_filterMap, map_filterMap]
  refine filterMap_congr fun line hline => ?_
  obtain ⟨code, b⟩ := line
  simp only [Function.comp_apply]
  split
  · exact (sameShape_alignLine (htrim _ hline)).widths
  · rfl

/-- **Codes that are lined up stay as they are.** -/
theorem alignCodes_alignCodes (htrim : ∀ code ∈ codes, Trimmed code) :
    alignCodes ((alignCodes codes).map trim) = alignCodes codes := by
  obtain ⟨lines, hlines⟩ : ∃ lines, lines = codes.zip (selectBlocks 0 none codes) := ⟨_, rfl⟩
  have hcodes : lines.map Prod.fst = codes := by
    rw [hlines, map_fst_zip (by simp)]
  have hblocks : lines.map Prod.snd = selectBlocks 0 none codes := by
    rw [hlines, map_snd_zip (by simp)]
  have htrim : ∀ line ∈ lines, Trimmed line.1 := fun line hline =>
    htrim _ (hcodes ▸ mem_map_of_mem hline)
  have hsame : List.Forall₂ SameShape codes ((lines.map (alignLine lines)).map trim) := by
    rw [← hcodes, List.forall₂_map_left_iff, map_map, List.forall₂_map_right_iff,
      List.forall₂_same]
    exact fun line hline => sameShape_alignLine (htrim line hline)
  have halign : alignCodes codes = lines.map (alignLine lines) := by rw [alignCodes, ← hlines]
  have hnew : ((lines.map (alignLine lines)).map trim).zip (selectBlocks 0 none codes) =
      lines.map fun l => (trim (alignLine lines l), l.2) := by
    rw [← hblocks, map_map, zip_map']
    rfl
  rw [halign, alignCodes, selectBlocks_congr hsame, hnew, map_map]
  refine map_congr_left fun line hline => ?_
  obtain ⟨code, b⟩ := line
  cases b with
  | none => exact (htrim _ hline).trim_eq
  | some block =>
    simp only [Function.comp_apply, alignLine_some]
    rw [columns_alignLine htrim, (sameShape_alignCode (htrim _ hline)).align]

/-! ## Rows -/

/-- The rows that the layout writes are read as the lines and codes that they were made of. -/
theorem map_text_layoutRows {tabSize depth : Nat} {pairs : List (BodyLine × List Char)}
    (h : ∀ p ∈ pairs, p.1 = .empty → p.2 = []) :
    (layoutRows tabSize depth pairs).map (fun row => (BodyLine.ofLine row).text) =
      pairs.map fun p => trim p.2 := by
  induction pairs generalizing depth with
  | nil => rfl
  | cons p pairs ih =>
    obtain ⟨hp, hpairs⟩ := forall_mem_cons.1 h
    obtain ⟨line, text⟩ := p
    cases line with
    | empty =>
      have htext : text = [] := hp rfl
      simp only [layoutRows, map_cons, ih hpairs, htext]
      rfl
    | code code =>
      simp only [layoutRows, map_cons, ih hpairs, ofLine_bodyRow]
      rfl

theorem layoutRows_layoutRows {tabSize depth : Nat} {pairs : List (BodyLine × List Char)}
    (h : ∀ code text, (BodyLine.code code, text) ∈ pairs → SameShape code (trim text)) :
    layoutRows tabSize depth
        (((layoutRows tabSize depth pairs).map BodyLine.ofLine).zip (pairs.map Prod.snd)) =
      layoutRows tabSize depth pairs := by
  induction pairs generalizing depth with
  | nil => rfl
  | cons p pairs ih =>
    have hpairs : ∀ code text, (BodyLine.code code, text) ∈ pairs → SameShape code (trim text) :=
      fun code text hmem => h code text (mem_cons_of_mem p hmem)
    obtain ⟨line, text⟩ := p
    cases line with
    | empty =>
      have hempty : BodyLine.ofLine [] = .empty := rfl
      simp only [layoutRows, map_cons, zip_cons_cons, hempty, ih hpairs]
    | code code =>
      have hsame : SameShape code (trim text) := h code text mem_cons_self
      simp only [layoutRows, map_cons, zip_cons_cons, ofLine_bodyRow, hsame.depths,
        hsame.margin, ih hpairs]

/-- What is written for a line is its own code, lined up with others or not. -/
theorem mem_zip_alignCodes {body : List BodyLine} {line : BodyLine} {text : List Char}
    (h : (line, text) ∈ body.zip (alignCodes (body.map (·.text)))) :
    line ∈ body ∧ ∃ lines b, text = alignLine lines (line.text, b) := by
  obtain ⟨blocks, hblocks⟩ : ∃ blocks, blocks = selectBlocks 0 none (body.map (·.text)) := ⟨_, rfl⟩
  obtain ⟨lines, hlines⟩ : ∃ lines, lines = (body.map (·.text)).zip blocks := ⟨_, rfl⟩
  have hbody : (body.zip blocks).map Prod.fst = body :=
    map_fst_zip (by simp [hblocks])
  have halign : alignCodes (body.map (·.text)) =
      (body.zip blocks).map fun t => alignLine lines (t.1.text, t.2) := by
    have hmap : lines = (body.zip blocks).map fun t => (t.1.text, t.2) := by
      rw [hlines, zip_map_left]
      rfl
    simp only [alignCodes, ← hblocks, ← hlines]
    nth_rewrite 2 [hmap]
    rw [map_map]
    rfl
  rw [halign] at h
  nth_rewrite 1 [← hbody] at h
  rw [zip_map'] at h
  obtain ⟨t, ht, heq⟩ := mem_map.1 h
  cases heq
  exact ⟨(of_mem_zip ht).1, lines, t.2, rfl⟩

theorem length_alignCodes (codes : List (List Char)) :
    (alignCodes codes).length = codes.length := by
  simp [alignCodes]

/-- **A body that is laid out stays as it is.** -/
theorem layoutBody_layoutBody (tabSize : Nat) (lines : List (List Char)) :
    layoutBody tabSize ((layoutBody tabSize (lines.map BodyLine.ofLine)).map BodyLine.ofLine) =
      layoutBody tabSize (lines.map BodyLine.ofLine) := by
  obtain ⟨body, hbody⟩ : ∃ body, body = lines.map BodyLine.ofLine := ⟨_, rfl⟩
  obtain ⟨pairs, hpairs⟩ : ∃ pairs, pairs = body.zip (alignCodes (body.map (·.text))) := ⟨_, rfl⟩
  have htrim {code : List Char} (h : .code code ∈ body) : Trimmed code := by
    rw [hbody] at h
    obtain ⟨line, -, hline⟩ := mem_map.1 h
    exact trimmed_of_ofLine hline
  have hempty : ∀ p ∈ pairs, p.1 = .empty → p.2 = [] := by
    rintro ⟨line, text⟩ hp rfl
    rw [hpairs] at hp
    obtain ⟨-, lines, b, htext⟩ := mem_zip_alignCodes hp
    cases b <;> exact htext
  have hsame : ∀ code text, (.code code, text) ∈ pairs → SameShape code (trim text) := by
    intro code text hp
    rw [hpairs] at hp
    obtain ⟨hcode, lines, b, htext⟩ := mem_zip_alignCodes hp
    rw [htext]
    exact sameShape_alignLine (htrim hcode)
  have hsnd : pairs.map Prod.snd = alignCodes (body.map (·.text)) := by
    rw [hpairs, map_snd_zip (by simp [length_alignCodes])]
  have hcodes : ((layoutRows tabSize 0 pairs).map BodyLine.ofLine).map (·.text) =
      (alignCodes (body.map (·.text))).map trim := by
    rw [map_map, ← hsnd, map_map]
    exact map_text_layoutRows hempty
  have hall : ∀ code ∈ body.map (·.text), Trimmed code := by
    rintro code hcode
    obtain ⟨line, hline, rfl⟩ := mem_map.1 hcode
    cases line with
    | empty => exact .nil
    | code code => exact htrim hline
  rw [← hbody, layoutBody, layoutBody, ← hpairs, hcodes, alignCodes_alignCodes hall, ← hsnd]
  exact layoutRows_layoutRows hsame

end RobotSource.Listing
