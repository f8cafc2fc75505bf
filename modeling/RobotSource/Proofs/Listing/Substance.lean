import RobotSource.Proofs.Listing.Rows
import RobotSource.Proofs.Listing.Stability
import RobotSource.Proofs.Listing.View
import RobotSource.Proofs.Parsing.Word
/-!
# The layout moves white space only

What a text holds besides white space is its substance (`bare`). A body line has a number, a code
and semicolons behind it, each of them or not (`CodeOf`), and the row that is written for it has the
substance `1:`, then that of the code, then `;` (`bare_bodyRow`). One word may change: in a select
block (`InSelect`) that of an `ELSE,` branch is written in capitals (`capitalElse`). All other lines
stay as they are, and none is lost but blank ones at the end of the text.
-/

namespace RobotSource.Listing

open Parsing Text List

variable {a b code line rest text row : List Char} {c : Char}

/-! ## Substance -/

@[simp] theorem bare_blanksOf (n : Nat) : bare (blanksOf n) = [] :=
  bare_eq_nil fun _ => isBlank_of_mem_blanksOf

theorem bare_bodyRow (n : Nat) : bare (bodyRow n text) = ['1', ':'] ++ bare text ++ [';'] := by
  have hnumber : bare [' ', ' ', ' ', '1', ':'] = ['1', ':'] := by decide
  have hsemicolon : bare [' ', ';'] = [';'] := by decide
  rw [bodyRow, bare_append, bare_append, bare_append, hnumber, hsemicolon, bare_blanksOf,
    append_nil]

/-! ## The code of a line -/

/-- The line begins with a number and its colon, and goes on with `rest`. -/
def Numbered (line rest : List Char) : Prop :=
  ∃ lead number, line = lead ++ (number ++ ':' :: rest) ∧ (∀ c ∈ lead, isBlank c = true) ∧
    number ≠ [] ∧ ∀ c ∈ number, isDecimalDigit c = true

/-- The code of a body line, without white space at its ends. Behind a number one closing semicolon
is taken off, if there is one. On a line without a number all semicolons are, that stand at its end
without a blank between them. -/
inductive CodeOf (line : List Char) : List Char → Prop
  | closed {rest kept : List Char} (h : Numbered line rest) (hrest : trim rest = kept ++ [';']) :
      CodeOf line (trimEnd kept)
  | unclosed {rest : List Char} (h : Numbered line rest)
      (hrest : (trim rest).getLast? ≠ some ';') : CodeOf line (trim rest)
  | bare {kept semicolons : List Char} (h : ∀ rest, ¬Numbered line rest)
      (hline : trim line = kept ++ semicolons) (hkept : kept.getLast? ≠ some ';')
      (hsemicolons : ∀ c ∈ semicolons, c = ';') : CodeOf line (trimEnd kept)

theorem isBlank_of_isDecimalDigit (h : isDecimalDigit c) : isBlank c = false := by
  rw [← Bool.not_eq_true]
  intro hblank
  have hnot : isDecimalDigit c = false :=
    of_isBlank (p := fun c => isDecimalDigit c = false) (by decide +kernel) hblank
  rw [hnot] at h
  cases h

theorem afterLineNumber?_eq_some_iff : afterLineNumber? line = some rest ↔ Numbered line rest := by
  constructor
  · intro h
    rw [afterLineNumber?] at h
    split at h
    · rename_i digit digits rest' hdigits hrest
      cases h
      refine ⟨line.takeWhile isBlank, digit :: digits, ?_, fun c hc => mem_takeWhile_imp hc,
        cons_ne_nil _ _, fun c hc => ?_⟩
      · rw [← hdigits, ← hrest, takeWhile_append_dropWhile, trimStart,
          takeWhile_append_dropWhile]
      · exact mem_takeWhile_imp (hdigits ▸ hc)
    · cases h
  · rintro ⟨lead, number, rfl, hlead, hne, hnumber⟩
    obtain ⟨digit, digits, rfl⟩ := exists_cons_of_ne_nil hne
    have hstart : trimStart (lead ++ (digit :: digits ++ ':' :: rest)) =
        digit :: digits ++ ':' :: rest := by
      rw [trimStart_append_of_all hlead, trimStart_of_head]
      intro c hc
      cases hc
      exact isBlank_of_isDecimalDigit (hnumber digit mem_cons_self)
    have hcolon : isDecimalDigit ':' = false := by decide
    simp only [afterLineNumber?, hstart, takeWhile_append_of_pos hnumber,
      dropWhile_append_of_pos hnumber, takeWhile_cons, dropWhile_cons, hcolon,
      Bool.false_eq_true, if_false, append_nil]

theorem terminated?_eq_some_iff :
    terminated? (trimStart rest) = some code ↔
      ∃ kept, trim rest = kept ++ [';'] ∧ code = trimEnd kept := by
  rw [terminated?, ← trim]
  constructor
  · intro h
    split at h
    · rename_i hlast
      cases h
      exact ⟨_, (dropLast_append_getLast? _ hlast).symm, rfl⟩
    · cases h
  · rintro ⟨kept, hkept, rfl⟩
    rw [hkept]
    simp

theorem terminated?_eq_none_iff :
    terminated? (trimStart rest) = none ↔ (trim rest).getLast? ≠ some ';' := by
  rw [terminated?, ← trim]
  split <;> simp_all

theorem exists_codeOf (line : List Char) : ∃ code, CodeOf line code := by
  cases hnumber : afterLineNumber? line with
  | some rest =>
    have hnumbered := afterLineNumber?_eq_some_iff.1 hnumber
    by_cases hlast : (trim rest).getLast? = some ';'
    · exact ⟨_, .closed hnumbered (dropLast_append_getLast? _ hlast).symm⟩
    · exact ⟨_, .unclosed hnumbered hlast⟩
  | none =>
    have hbare : ∀ rest, ¬Numbered line rest := by
      intro rest hrest
      rw [afterLineNumber?_eq_some_iff.2 hrest] at hnumber
      cases hnumber
    obtain ⟨semicolons, hline, hall⟩ := exists_eq_dropEndWhile_append (· == ';') (trim line)
    refine ⟨_, .bare hbare hline (fun hlast => ?_) fun c hc => eq_of_beq (hall c hc)⟩
    have hkept := getLast?_dropEndWhile hlast
    exact absurd hkept (by decide)

/-- **The layout takes the code out of a line.** -/
theorem ofLine_of_codeOf (hline : allBlank line = false) (h : CodeOf line code) :
    BodyLine.ofLine line = .code code := by
  rw [BodyLine.ofLine, hline]
  simp only [Bool.false_eq_true, if_false]
  cases h with
  | closed h hrest =>
    rw [afterLineNumber?_eq_some_iff.2 h]
    simp only [terminated?_eq_some_iff.2 ⟨_, hrest, rfl⟩]
  | @unclosed rest h hrest =>
    rw [afterLineNumber?_eq_some_iff.2 h]
    have hloose : looseCode rest = trim rest := by
      rw [looseCode, dropEndWhile_of_getLast, trimEnd_of_getLast trimmed_trim.last]
      rintro c hc
      rw [beq_eq_false_iff_ne]
      rintro rfl
      exact hrest hc
    simp only [terminated?_eq_none_iff.2 hrest, hloose]
  | @bare kept semicolons h hkept hlast hall =>
    have hnumber : afterLineNumber? line = none := by
      rw [Option.eq_none_iff_forall_ne_some]
      exact fun rest hrest => h rest (afterLineNumber?_eq_some_iff.1 hrest)
    have hloose : looseCode line = trimEnd kept := by
      rw [looseCode, hkept, dropEndWhile_append_of_eq_nil, dropEndWhile_of_getLast]
      · rintro c hc
        rw [beq_eq_false_iff_ne]
        rintro rfl
        exact hlast hc
      · exact dropEndWhile_eq_nil.2 fun c hc => beq_iff_eq.2 (hall c hc)
    simp only [hnumber, hloose]

/-! ## Branches of a select -/

/-- The code with the word of an `ELSE,` branch in capitals. -/
def capitalElse (code : List Char) : List Char :=
  if (elseAction? code).isSome then (code.take 4).flatMap upperCase ++ code.drop 4 else code

theorem upperCase_of_isLetter {l : Char} (hl : l ∈ ['e', 'l', 's']) (h : isLetter l c) :
    upperCase c = [l.toUpper] := by
  rcases isLetter_iff.1 h with hlower | ⟨rfl, rfl⟩
  · simp only [mem_cons, not_mem_nil, or_false] at hl
    rcases hl with rfl | rfl | rfl <;>
      rcases eq_or_eq_of_toLower_eq (by decide) hlower with rfl | rfl <;> decide
  · decide

/-- The word of an `ELSE,` branch, in capitals. -/
theorem flatMap_upperCase_else {word : List Char} (h : afterLetters? "else".toList word = some []) :
    word.length = 4 ∧ word.flatMap upperCase = ['E', 'L', 'S', 'E'] := by
  obtain ⟨x, y, z, w, rfl, hx, hy, hz, hw⟩ : ∃ x y z w, word = [x, y, z, w] ∧
      isLetter 'e' x ∧ isLetter 'l' y ∧ isLetter 's' z ∧
      isLetter 'e' w := by
    match word, h with
    | x :: y :: z :: w :: rest, h =>
      simp only [show "else".toList = ['e', 'l', 's', 'e'] from rfl, afterLetters?,
        Option.ite_none_right_eq_some, Option.some.injEq] at h
      obtain ⟨hx, hy, hz, hw, rfl⟩ := h
      exact ⟨x, y, z, w, rfl, hx, hy, hz, hw⟩
    | [x, y, z], h => simp [afterLetters?] at h
    | [x, y], h => simp [afterLetters?] at h
    | [x], h => simp [afterLetters?] at h
    | [], h => simp [afterLetters?] at h
  refine ⟨rfl, ?_⟩
  simp only [flatMap_cons, flatMap_nil, upperCase_of_isLetter (by simp) hx,
    upperCase_of_isLetter (by simp) hy, upperCase_of_isLetter (by simp) hz,
    upperCase_of_isLetter (by simp) hw]
  decide

/-- A branch with an equals sign is no `ELSE,` branch. -/
theorem elseAction?_of_caseShape {s : CaseShape} (h : caseShape? code = some s) :
    elseAction? code = none := by
  rw [Option.eq_none_iff_forall_ne_some]
  intro action haction
  obtain ⟨x, y, rest, hcode, hx, -⟩ := exists_cons_of_elseAction haction
  obtain ⟨hshape, -, hnil | ⟨hselect, -⟩⟩ := caseShape?_eq_some_iff.1 h
  · rw [hnil, hcode] at hshape
    obtain rfl := (List.cons.inj hshape).1
    exact absurd hx (by decide)
  · have hnot := isSelect_of_elseAction haction
    rw [hshape, isSelect_append (by simp; decide), hselect] at hnot
    cases hnot

/-- **Lining up moves the white space of a branch**, and writes the word of an `ELSE,` branch in
capitals. -/
theorem bare_alignCode (columns : SelectColumns) :
    bare (alignCode columns code) = bare (capitalElse code) := by
  have hequals : isBlank '=' = false := by decide
  have hcomma : isBlank ',' = false := by decide
  rw [alignCode]
  cases hcase : caseShape? code with
  | some s =>
    rw [capitalElse, elseAction?_of_caseShape hcase]
    conv_rhs => rw [Option.isSome_none, if_neg Bool.false_ne_true, (caseShape?_eq_some_iff.1 hcase).1]
    simp only [bare_append, bare_cons hequals, bare_cons hcomma, bare_trimEnd, bare_trim,
      bare_trimStart, bare_blanksOf, nil_append, append_assoc, cons_append]
  | none =>
    cases helse : elseAction? code with
    | none => rw [capitalElse, helse]; rfl
    | some action =>
      obtain ⟨word, gap, rest, rfl, hword, hgap, rfl⟩ := elseAction?_eq_some_iff.1 helse
      obtain ⟨hlength, hcapitals⟩ := flatMap_upperCase_else hword
      rw [capitalElse, helse, Option.isSome_some, if_pos rfl, append_assoc, ← hlength,
        take_left, drop_left, hcapitals]
      simp only [bare_append, bare_cons hcomma, bare_trimStart, bare_blanksOf,
        bare_eq_nil hgap, nil_append]
      rfl

/-! ## Select blocks -/

/-- The line of a number is there and continues a select. -/
def ContinuesAt (codes : List (List Char)) (i : Nat) : Prop :=
  ∃ code, codes[i]? = some code ∧ continuesSelect code = true

/-- A line stands in a select block: a line up to it opens a select, and all lines from there on
continue it. -/
def InSelect (codes : List (List Char)) (i : Nat) : Prop :=
  ∃ j ≤ i, (∃ code, codes[j]? = some code ∧ isSelect code = true) ∧
    ∀ k, j < k → k ≤ i → ContinuesAt codes k

variable {codes : List (List Char)} {i : Nat}

theorem inSelect_zero : InSelect (code :: codes) 0 ↔ isSelect code := by
  constructor
  · rintro ⟨j, hj, ⟨code', hcode, hselect⟩, -⟩
    obtain rfl := Nat.le_zero.1 hj
    cases hcode
    exact hselect
  · intro hselect
    exact ⟨0, le_rfl, ⟨code, rfl, hselect⟩, fun k hk hk' => absurd hk' (Nat.not_le.2 hk)⟩

/-- The line that opens the block is the first one or a later one. -/
theorem inSelect_succ :
    InSelect (code :: codes) (i + 1) ↔
      isSelect code = true ∧ (∀ k ≤ i, ContinuesAt codes k) ∨ InSelect codes i := by
  constructor
  · rintro ⟨j, hj, ⟨code', hcode, hselect⟩, hbehind⟩
    cases j with
    | zero =>
      cases hcode
      exact .inl ⟨hselect, fun k hk => hbehind (k + 1) (by omega) (by omega)⟩
    | succ j =>
      exact .inr ⟨j, by omega, ⟨code', hcode, hselect⟩,
        fun k hk hk' => hbehind (k + 1) (by omega) (by omega)⟩
  · rintro (⟨hselect, hbehind⟩ | ⟨j, hj, hopens, hbehind⟩)
    · refine ⟨0, by omega, ⟨code, rfl, hselect⟩, fun k hk hk' => ?_⟩
      obtain ⟨k, rfl⟩ := Nat.exists_eq_succ_of_ne_zero hk.ne'
      exact hbehind k (by omega)
    · refine ⟨j + 1, by omega, hopens, fun k hk hk' => ?_⟩
      obtain ⟨k, rfl⟩ := Nat.exists_eq_succ_of_ne_zero (by omega : k ≠ 0)
      exact hbehind k (by omega) (by omega)

/-- **The blocks of the layout are the select blocks.** Before the first line a block may be open
already. -/
theorem exists_selectBlocks_iff (blocks : Nat) (open? : Option Nat) (hi : i < codes.length) :
    (∃ b, (selectBlocks blocks open? codes)[i]? = some (some b)) ↔
      InSelect codes i ∨ open?.isSome ∧ ∀ k ≤ i, ContinuesAt codes k := by
  induction codes generalizing blocks open? i with
  | nil => cases hi
  | cons code codes ih =>
    have hfirst : ContinuesAt (code :: codes) 0 ↔ continuesSelect code := by
      simp [ContinuesAt]
    have hall {i : Nat} : (∀ k ≤ i + 1, ContinuesAt (code :: codes) k) ↔
        continuesSelect code = true ∧ ∀ k ≤ i, ContinuesAt codes k := by
      constructor
      · exact fun h => ⟨hfirst.1 (h 0 (by omega)), fun k hk => h (k + 1) (by omega)⟩
      · rintro ⟨hcode, hbehind⟩ k hk
        cases k with
        | zero => exact hfirst.2 hcode
        | succ k => exact hbehind k (by omega)
    rw [selectBlocks]
    split
    · rename_i hselect
      cases i with
      | zero => simp [inSelect_zero, hselect]
      | succ i =>
        rw [getElem?_cons_succ, ih _ _ (by simpa using hi), inSelect_succ, hall]
        simp only [hselect, true_and, Option.isSome_some]
        tauto
    · rename_i hselect
      cases i with
      | zero =>
        simp only [getElem?_cons_zero, Option.some.injEq, inSelect_zero, hselect,
          Bool.false_eq_true, false_or, Nat.le_zero, forall_eq, hfirst]
        cases open? <;> simp
      | succ i =>
        rw [getElem?_cons_succ, ih _ _ (by simpa using hi), inSelect_succ, hall]
        cases hcontinues : continuesSelect code <;> simp [hselect]

/-! ## Rows -/

/-- What the layout makes of a body line. A blank line stays blank. Any other becomes its code
between `1:` and `;`, white space left aside, in a select block with the word of an `ELSE,` branch in
capitals. -/
structure Moved (inSelect : Prop) (line row : List Char) : Prop where
  blank : allBlank line = true → allBlank row = true
  code : allBlank line = false → ∃ code, (∀ code', CodeOf line code' ↔ code' = code) ∧
    (inSelect → bare row = ['1', ':'] ++ bare (capitalElse code) ++ [';']) ∧
    (¬inSelect → bare row = ['1', ':'] ++ bare code ++ [';'])

theorem length_layoutRows {tabSize depth : Nat} {pairs : List (BodyLine × List Char)} :
    (layoutRows tabSize depth pairs).length = pairs.length := by
  fun_induction layoutRows tabSize depth pairs with
  | case1 => rfl
  | case2 depth text rest ih => rw [length_cons, length_cons, ih]
  | case3 depth code text rest own behind _ ih => rw [length_cons, length_cons, ih]

/-- What is written for a body line, with its code as given and so many blanks before it. -/
def BodyLine.written (n : Nat) (text : List Char) : BodyLine → List Char
  | .empty => []
  | .code _ => bodyRow n text

/-- Each line is written by itself, at a depth of its own. -/
theorem getElem?_layoutRows (tabSize depth : Nat) {pairs : List (BodyLine × List Char)}
    {body : BodyLine} (h : pairs[i]? = some (body, text)) :
    ∃ n, (layoutRows tabSize depth pairs)[i]? = some (body.written n text) := by
  induction pairs generalizing depth i with
  | nil => cases h
  | cons p pairs ih =>
    obtain ⟨first, written⟩ := p
    cases i with
    | zero =>
      obtain ⟨rfl, rfl⟩ := Prod.mk.inj (Option.some.inj h)
      cases first with
      | empty => exact ⟨0, rfl⟩
      | code code => exact ⟨_, rfl⟩
    | succ i => cases first <;> exact ih _ h

/-- What is written for the code of a line depends on the block that the line stands in, if any. -/
theorem exists_alignLine (hcode : codes[i]? = some code) :
    ∃ block, (alignCodes codes)[i]? =
      some (alignLine (codes.zip (selectBlocks 0 none codes)) (code, block)) ∧
      (block.isSome = true ↔ InSelect codes i) := by
  have hi : i < codes.length := (List.getElem?_eq_some_iff.1 hcode).1
  have hlt : i < (selectBlocks 0 none codes).length := by rwa [length_selectBlocks]
  obtain ⟨block, hblock⟩ : ∃ block, (selectBlocks 0 none codes)[i]? = some block :=
    ⟨_, getElem?_eq_getElem hlt⟩
  have hline : (codes.zip (selectBlocks 0 none codes))[i]? = some (code, block) :=
    getElem?_zip_eq_some.2 ⟨hcode, hblock⟩
  have hiff := exists_selectBlocks_iff 0 none hi
  simp only [hblock, Option.some.injEq, Option.isSome_none, Bool.false_eq_true, false_and,
    or_false] at hiff
  refine ⟨block, ?_, Option.isSome_iff_exists.trans hiff⟩
  rw [alignCodes, getElem?_map, hline, Option.map_some]

/-- What is written for the code of a line has its substance. -/
theorem bare_alignCodes (hcode : codes[i]? = some code) :
    ∃ written, (alignCodes codes)[i]? = some written ∧
      (InSelect codes i → bare written = bare (capitalElse code)) ∧
      (¬InSelect codes i → bare written = bare code) := by
  obtain ⟨block, hwritten, hiff⟩ := exists_alignLine hcode
  refine ⟨_, hwritten, ?_⟩
  cases block with
  | none => exact ⟨fun hin => absurd (hiff.2 hin) (by simp), fun _ => rfl⟩
  | some b =>
    refine ⟨fun _ => ?_, fun hout => absurd (hiff.1 rfl) hout⟩
    rw [alignLine_some, bare_alignCode]

/-- **A row has the substance of its line.** -/
theorem moved_row (tabSize : Nat) {lines : List (List Char)} (hline : lines[i]? = some line)
    (hrow : (layoutBody tabSize (lines.map BodyLine.ofLine))[i]? = some row) :
    Moved (InSelect (lines.map fun l => (BodyLine.ofLine l).text) i) line row := by
  have htexts : (lines.map BodyLine.ofLine).map (·.text) =
      lines.map fun l => (BodyLine.ofLine l).text := map_map ..
  rw [layoutBody, htexts] at hrow
  generalize hcodes : (lines.map fun l => (BodyLine.ofLine l).text) = codes at hrow ⊢
  have hbody : (lines.map BodyLine.ofLine)[i]? = some (BodyLine.ofLine line) := by
    rw [getElem?_map, hline, Option.map_some]
  have hcode : codes[i]? = some (BodyLine.ofLine line).text := by
    rw [← hcodes, getElem?_map, hline, Option.map_some]
  obtain ⟨written, hwritten, hin, hout⟩ := bare_alignCodes hcode
  have hpair : ((lines.map BodyLine.ofLine).zip (alignCodes codes))[i]? =
      some (BodyLine.ofLine line, written) := getElem?_zip_eq_some.2 ⟨hbody, hwritten⟩
  obtain ⟨n, hn⟩ := getElem?_layoutRows tabSize 0 hpair
  have hrow : row = (BodyLine.ofLine line).written n written := Option.some.inj (hrow.symm.trans hn)
  constructor
  · intro hblank
    have hempty : BodyLine.ofLine line = .empty := if_pos hblank
    rw [hrow, hempty]
    rfl
  · intro hblank
    obtain ⟨code, hof⟩ := exists_codeOf line
    have hofLine := ofLine_of_codeOf hblank hof
    rw [hofLine] at hrow hin hout
    rw [hrow, BodyLine.written, bare_bodyRow]
    refine ⟨code, fun code' => ⟨fun hof' => ?_, fun heq => heq ▸ hof⟩, fun h => ?_, fun h => ?_⟩
    · exact BodyLine.code.inj ((ofLine_of_codeOf hblank hof').symm.trans hofLine)
    · rw [hin h, BodyLine.text]
    · rw [hout h, BodyLine.text]

/-! ## Whole listings -/

/-- A listing has its sections if the first `/MN` line stands before the first `/POS` line. -/
theorem exists_divides_iff {lines : List (List Char)} :
    (∃ s : Sections, s.Divides lines) ↔
      ∃ main positions, lines.findIdx? (isMarkerLine "/MN") = some main ∧
        lines.findIdx? (isMarkerLine "/POS") = some positions ∧ main < positions := by
  constructor
  · rintro ⟨s, h⟩
    obtain ⟨before, marker, hhead, hmain, hbefore⟩ := h.main
    obtain ⟨marker', behind, htail, hpositions⟩ := h.positions
    refine ⟨before.length, (s.head ++ s.body).length, ?_, ?_, ?_⟩
    · refine findIdx?_eq_some_iff_split.2 ⟨before, marker, s.body ++ s.tail, ?_, rfl, hmain, hbefore⟩
      rw [h.lines_eq, Sections.allLines, hhead]
      simp
    · refine findIdx?_eq_some_iff_split.2
        ⟨s.head ++ s.body, marker', behind, ?_, rfl, hpositions, h.noPositions⟩
      rw [h.lines_eq, Sections.allLines, htail]
    · rw [hhead]
      simp only [length_append, length_cons, length_nil]
      omega
  · rintro ⟨main, positions, hmain, hpositions, hlt⟩
    simp only [← ofLines?_eq_some_iff, Sections.ofLines?, hmain, hpositions, Option.bind_eq_bind,
      Option.bind_some, if_neg (Nat.not_lt.2 hlt.le)]
    exact ⟨_, rfl⟩

/-- The lines at the end of a text that are dropped are blank. -/
theorem exists_dropped (s : Sections) (defaultTab : Nat) (options : LayoutOptions) :
    ∃ dropped, s.tail = (s.laidOut defaultTab options).tail ++ dropped ∧
      (∀ l ∈ dropped, allBlank l) ∧ (options.trimFinalNewlines = false → dropped = []) := by
  cases htrim : options.trimFinalNewlines with
  | false => exact ⟨[], by simp [Sections.laidOut, htrim], by simp, fun _ => rfl⟩
  | true =>
    refine ⟨(s.tail.reverse.takeWhile allBlank).reverse, ?_, fun l hl => ?_, fun h => by cases h⟩
    · rw [Sections.laidOut, htrim, if_pos rfl, dropBlankEnd, ← reverse_append,
        takeWhile_append_dropWhile, reverse_reverse]
    · exact mem_takeWhile_imp (mem_reverse.1 hl)

/-- **The layout moves white space only.** It answers exactly if a listing has a `/MN` line and a
`/POS` line, the first `/MN` line before the first `/POS` line. The answer has the lines of the
listing in their order, put together with its line break, but for blank lines that are dropped at the
end where this is asked for. The lines up to `/MN` and from `/POS` on are the same; between them each
line is moved (`Moved`). Read as a listing, the answer has just these lines, unless a break is put
behind a carriage return that ends the text. -/
theorem layout?_moves_white_space (defaultTab : Nat) (options : LayoutOptions) (text : String) :
    let lines := listingLines text.toList
    let newline := lineBreakOf text.toList
    ((layout? defaultTab options text).isSome ↔
      ∃ main positions, lines.findIdx? (isMarkerLine "/MN") = some main ∧
        lines.findIdx? (isMarkerLine "/POS") = some positions ∧ main < positions) ∧
    ∀ out, layout? defaultTab options text = some out →
      ∃ (s : Sections) (rows tail dropped : List (List Char)), s.Divides lines ∧
        out.toList = joinLines newline (s.head ++ rows ++ tail) ++
          (if text.toList.getLast? = some '\n' ∨ options.insertFinalNewline then newline else []) ∧
        (¬(options.insertFinalNewline = true ∧ text.toList.getLast? = some '\r') →
          listingLines out.toList = s.head ++ rows ++ tail) ∧
        s.tail = tail ++ dropped ∧ (∀ l ∈ dropped, allBlank l = true) ∧
        (options.trimFinalNewlines = false → dropped = []) ∧
        rows.length = s.body.length ∧
        ∀ i line row, s.body[i]? = some line → rows[i]? = some row →
          Moved (InSelect (s.body.map fun l => (BodyLine.ofLine l).text) i) line row := by
  intro lines newline
  constructor
  · rw [← exists_divides_iff, layout?, Option.isSome_map, Option.isSome_iff_exists]
    constructor
    · rintro ⟨out, hout⟩
      obtain ⟨s, hs, -⟩ := exists_divides_of_layoutChars? hout
      exact ⟨s, hs⟩
    · rintro ⟨s, hs⟩
      exact ⟨_, layoutChars?_eq hs⟩
  · intro out hout
    obtain ⟨chars, hchars, rfl⟩ := Option.map_eq_some_iff.1 hout
    obtain ⟨s, hs, rfl⟩ := exists_divides_of_layoutChars? hchars
    obtain ⟨dropped, htail, hblank, hkept⟩ := exists_dropped s defaultTab options
    refine ⟨s, _, _, dropped, hs, String.toList_ofList, fun hreturn => ?_, htail, hblank, hkept, ?_,
      fun i line row => moved_row _⟩
    · rw [String.toList_ofList]
      exact (writable_laidOut hs hreturn).read.1
    · simp [Sections.laidOut, layoutBody, length_layoutRows, length_alignCodes]

end RobotSource.Listing
