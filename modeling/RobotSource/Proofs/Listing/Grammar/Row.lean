import RobotSource.Proofs.Listing.Grammar.Branch
import RobotSource.Proofs.Listing.Grammar.SingleLine
/-!
# Rows hold the instructions of their lines

The layout writes the code of a body line behind another number and other white space, and closes it
with another line end. Neither is part of what is read (`instructionKind_inLine`), and lining up
keeps the branches of a select (`instructionKind_lined`). So a row is read as the instruction of the
line that it was written for (`parse_row`), as far as the literals in it are kept, and a body that is
laid out as the instructions of the body that it was written for (`reaches_layoutBody`).
-/

namespace RobotSource.Listing.Grammar

open Parsing Parsing.Parser Text List

variable {v : View} {c d r : Cursor} {k : InstructionKind} {code text line s : List Char}
variable {tail post g : List Char} {j : Instruction}

/-! ## The parts of a line -/

theorem ofText_of (line : List Char) : (Cursor.ofText (String.ofList line)).Of line :=
  ⟨[], by rw [Cursor.ofText, String.toList_ofList]; exact .refl _⟩

theorem digits_eq_done {ds : List Char} (h : digits c = .done ds r) :
    c.rest = ds ++ r.rest ∧ ds ≠ [] ∧ ∀ y ∈ ds, y.isDigit := by
  obtain ⟨hne, rfl, rfl⟩ := takeWhile1_eq_done.1 h
  exact ⟨(Passes.takeWhile _).rest, hne, fun y hy => all_eq_true.1 all_takeWhile y hy⟩

/-- A body line in front of its semicolon: its number, the instruction, and spaces and tabs around
them. -/
theorem code_eq_done {x : InstructionKind × Span} (hc : c.Of text)
    (h : Reaches Grammar.code c x s) :
    ∃ lead number gap body post c₁ c₂, c.rest = lead ++ (number ++ ':' :: (gap ++ c₁.rest)) ∧
      c₁.rest = body ++ c₂.rest ∧ c₂.rest = post ++ s ∧
      (∀ y ∈ lead ++ gap ++ post, isSpaceOrTab y) ∧ number ≠ [] ∧
      (∀ y ∈ number, y.isDigit) ∧ c₁.rest.head?.any isSpaceOrTab = false ∧
      instructionKind c₁ = .done x.1 c₂ ∧ Over InRow c c₁ := by
  obtain ⟨r, h, rfl⟩ := h
  obtain ⟨_, c₁, h₁, number, c₂, h₂, _, c₃, h₃, _, c₄, h₄, h⟩ := bind₄_eq_done.1 h
  obtain ⟨x, c₅, hspanned, _, c₆, h₆, h⟩ := bind₂_eq_done.1 h
  cases h
  obtain ⟨kind, hkind, rfl⟩ := spanned_eq_done.1 hspanned
  obtain ⟨lead, hlead, hleadSpaces, -⟩ := spaces_eq_done h₁
  obtain ⟨hnumber, hne, hdigits⟩ := digits_eq_done h₂
  obtain ⟨gap, hgap, hgapSpaces, hstart⟩ := spaces_eq_done h₄
  obtain ⟨post, hpost, hpostSpaces, -⟩ := spaces_eq_done h₆
  have hbefore : Over InRow c c₄ := inRow_number h₁ h₂ h₃ h₄
  obtain ⟨body, hbody, -⟩ := (adds_instructionKind.alone (hc.over hbefore) hkind).inRow
  refine ⟨lead, number, gap, body, post, c₄, c₅, ?_, hbody.rest, hpost, ?_, hne, hdigits, hstart,
    hkind, hbefore⟩
  · rw [hlead, hnumber, (passes_char h₃).rest, hgap, singleton_append]
  · intro y hy
    rcases mem_append.1 hy with hy | hy
    · exact (mem_append.1 hy).elim (hleadSpaces y) (hgapSpaces y)
    · exact hpostSpaces y hy

/-- Such an instruction is read in front of a semicolon. -/
abbrev ReadsKind (d : Cursor) (Q : InstructionKind → Prop) : Prop :=
  ∃ k gap, Reaches instructionKind d k (gap ++ [';']) ∧ (∀ y ∈ gap, isSpaceOrTab y) ∧ Q k

/-- A row is read as the code that it holds. -/
theorem reaches_instruction {T gap : List Char} {Q : InstructionKind → Prop}
    (hgap : ∀ y ∈ gap, isSpaceOrTab y) (hT : T.head?.any isSpaceOrTab = false)
    (hd : d.rest = [' ', ' ', ' ', '1', ':'] ++ (gap ++ T))
    (h : ∀ d₁ : Cursor, d₁.rest = T → Over InRow d d₁ → ReadsKind d₁ Q) :
    ∃ j, Reaches instruction d j [] ∧ Q j.kind := by
  obtain ⟨d₁, h₁, hd₁⟩ := reaches_spaces (c := d) (l := [' ', ' ', ' ']) hd (by decide) rfl
  obtain ⟨d₂, h₂, hd₂⟩ : Reaches digits d₁ ['1'] (':' :: (gap ++ T)) :=
    .of_drop (k := 1) (by rw [digits, takeWhile1, hd₁]; rfl) (by rw [hd₁]; rfl)
  obtain ⟨d₃, h₃, hd₃⟩ := reaches_char hd₂
  obtain ⟨d₄, h₄, hd₄⟩ := reaches_spaces hd₃ hgap hT
  have hbefore : Over InRow d d₄ := inRow_number h₁ h₂ h₃ h₄
  obtain ⟨k, post, ⟨d₅, hkind, hd₅⟩, hpost, hQ⟩ := h d₄ hd₄ hbefore
  obtain ⟨d₆, h₆, hd₆⟩ := reaches_spaces hd₅ hpost rfl
  refine ⟨⟨k, ⟨d₄.position, d₅.position⟩⟩, ?_, hQ⟩
  refine instruction_eq_done_iff.2 ⟨(k, ⟨d₄.position, d₅.position⟩), [], [], ⟨d₆, ?_, hd₆⟩, by simp,
    .inr ⟨rfl, rfl⟩, rfl⟩
  exact bind_of_done h₁ <| bind_of_done h₂ <| bind_of_done h₃ <| bind_of_done h₄ <|
    bind_of_done (spanned_eq_done.2 ⟨k, hkind, rfl⟩) <| bind_of_done h₆ rfl

/-! ## Code in another line -/

/-- A line that begins with its semicolon is blank. -/
theorem instructionKind_of_semicolon (h : c.rest.head? = some ';') :
    instructionKind c = .done .blank c :=
  orElse_of_done (seqRight_eq_done.2 ⟨_, c, by rw [lookahead, char, if_pos h], rfl⟩)

/-- Code that is read side by side with itself, in front of another line end, is the same
instruction there. -/
theorem instructionKind_of_wording {R : Cursor → Cursor → Prop} {v' : View}
    (hR : ∀ c d, R c d → InLine (';' :: g) [';'] c d) (hwording : Wording R R v v') (hcd : R c d)
    (hne : code ≠ []) (hc : c.rest = code ++ (tail ++ ';' :: g)) (hd : d.rest = code ++ [' ', ';'])
    (hpost : ∀ y ∈ post, isSpaceOrTab y)
    (h : Reaches instructionKind c k (post ++ ';' :: g)) :
    ReadsKind d fun k' => k.view v = k'.view v' := by
  obtain ⟨x, u, rfl⟩ := exists_cons_of_ne_nil hne
  obtain ⟨c', hdone, hc'⟩ := h
  have hhead : c.rest.head? = some x := by rw [hc]; rfl
  have hhead' : d.rest.head? = some x := by rw [hd]; rfl
  -- a line that begins with its semicolon has no code
  have hx : x ≠ ';' := by
    rintro rfl
    rw [instructionKind_of_semicolon hhead] at hdone
    cases hdone
    have hpost : post = [] := by
      cases post with
      | nil => rfl
      | cons y post =>
        rw [hc', cons_append, head?_cons, Option.some.injEq] at hhead
        exact absurd (hpost y mem_cons_self) (by rw [hhead]; decide)
    have hlength := congrArg List.length (hc.symm.trans hc')
    simp only [hpost, length_append, length_cons, length_nil] at hlength
    omega
  obtain ⟨k', d', hdone', hview, hrest⟩ :=
    (hwording.flowInstruction.orElse hwording.otherInstruction).exists_right hcd
      (((failsAt_semicolon hx).orElse_right_iff hhead).1 hdone)
  obtain ⟨gap, hd', hgap⟩ :=
    (hR _ _ hrest).exists_gap (fun y hy => isBlank_of_isSpaceOrTab (hpost y hy)) hc'
  refine ⟨k', gap, ⟨d', ?_, hd'⟩, hgap, hview⟩
  exact ((failsAt_semicolon hx).orElse_right_iff hhead').2 hdone'

theorem closing_of_spaces (hg : ∀ y ∈ g, isSpaceOrTab y) : Closing (';' :: g) :=
  ⟨g, [], by simp, isBlank_of_isSpaceOrTab_of_mem hg, by simp⟩

/-- **Code is read as before in front of another line end.** -/
theorem instructionKind_inLine (hplace : ∀ p q, v.position p = v.position q) (hcode : Trimmed code)
    (hne : code ≠ []) (hc : c.rest = code ++ (tail ++ ';' :: g)) (hd : d.rest = code ++ [' ', ';'])
    (htail : ∀ y ∈ tail, isBlank y ∧ y ≠ '\n') (hg : ∀ y ∈ g, isSpaceOrTab y)
    (hpost : ∀ y ∈ post, isSpaceOrTab y)
    (h : Reaches instructionKind c k (post ++ ';' :: g)) :
    ReadsKind d fun k' => k.view v = k'.view v := by
  have hwording := wording_inLine (closing_of_spaces hg) (closing_of_spaces (g := []) (by simp)) hplace
  exact instructionKind_of_wording (fun _ _ h => h) hwording
    ⟨code, tail, [' '], hc, hd, htail, by decide, hcode.last⟩ hne hc hd hpost h

/-- **Lining up keeps the instruction.** -/
theorem instructionKind_lined (hplace : ∀ p q, v.position p = v.position q) (hcode : Trimmed code)
    (hne : code ≠ []) (hc : c.rest = code ++ (tail ++ ';' :: g)) (hd : d.rest = text ++ [' ', ';'])
    (htail : ∀ y ∈ tail, isBlank y ∧ y ≠ '\n') (hg : ∀ y ∈ g, isSpaceOrTab y)
    (hpost : ∀ y ∈ post, isSpaceOrTab y) (h : Reaches instructionKind c k (post ++ ';' :: g))
    (hlined : Lined code text) (hline : '\n' ∉ code) (hkept : KeptLiterals v code text) :
    ReadsKind d fun k' => k.view v = k'.view v := by
  have hplain {d : Cursor} (hd : d.rest = code ++ [' ', ';']) :=
    instructionKind_inLine hplace hcode hne hc hd htail hg hpost h
  cases hlined with
  | same => exact hplain hd
  | branch hshape =>
    obtain ⟨k₁, gap, hk₁, hgap, hview⟩ := hplain (d := ⟨code ++ [' ', ';'], .first⟩) rfl
    obtain ⟨k', hk', hview'⟩ := instructionKind_closed hplace hshape hline hkept hgap rfl hd hk₁
    exact ⟨k', gap, hk', hgap, hview.trans hview'⟩
  | otherwise haction =>
    obtain ⟨k₁, gap, hk₁, hgap, hview⟩ := hplain (d := ⟨code ++ [' ', ';'], .first⟩) rfl
    obtain ⟨k', hk', hview'⟩ := instructionKind_otherwise hplace haction hgap rfl hd hk₁
    exact ⟨k', gap, hk', hgap, hview.trans hview'⟩

/-- What lining up makes of code begins with no space or tab. -/
theorem head?_of_lined (hcode : Trimmed code) (hne : code ≠ []) (h : Lined code text)
    (e : List Char) : (text ++ e).head?.any isSpaceOrTab = false := by
  cases h with
  | same =>
    obtain ⟨x, u, rfl⟩ := exists_cons_of_ne_nil hne
    have hx := hcode.head x rfl
    by_contra hspace
    rw [isBlank_of_isSpaceOrTab (by simpa using hspace)] at hx
    cases hx
  | branch hshape =>
    obtain ⟨x, hx, hhead⟩ := head?_closed hshape e
    simp [hhead, not_isSpaceOrTab_of_mem hx]
  | otherwise => rfl

/-- Where a kind of instruction is read, no white space comes first. -/
theorem head?_of_instructionKind (h : instructionKind c = .done k r)
    (hspace : c.rest.head?.any isSpaceOrTab = false) : c.rest.head?.any isBlank = false := by
  cases hhead : c.rest.head? with
  | none => rfl
  | some x =>
    by_contra hblank
    have hblank : isBlank x := by simpa using hblank
    have hx : x ≠ ';' := by
      rintro rfl
      exact absurd hblank (by decide)
    refine flow_or_other_ne_done hhead (by simp [isLineEnd, hblank]) (by simpa [hhead] using hspace)
      (((failsAt_semicolon hx).orElse_right_iff hhead).1 h)

/-- A line without breaks that ends with a line end ends with the text. -/
theorem Ended.eq_nil {e : List Char} (h : Ended e s) (hfree : '\n' ∉ e) : e = [] := by
  rcases h with ⟨b, rfl | rfl, rfl⟩ | ⟨hnil, -⟩
  · simp at hfree
  · simp at hfree
  · exact hnil

theorem isDecimalDigit_of_isDigit {y : Char} (h : y.isDigit) :
    isDecimalDigit y ∧ isBlank y = false := by
  refine ⟨by rw [isDecimalDigit, if_pos (lt_of_isDigit h), h], ?_⟩
  cases hblank : isBlank y with
  | false => rfl
  | true =>
    rw [delimiter_isLineEnd.digit (by simp [isLineEnd, hblank])] at h
    cases h

/-- A body line by itself, and the code that the layout finds in it. -/
theorem ofLine_of_parse (hline : '\n' ∉ line) (h : Instruction.parse (String.ofList line) = .ok j) :
    ∃ code tail post g c c', BodyLine.ofLine line = .code code ∧ c.rest = code ++ (tail ++ ';' :: g) ∧
      instructionKind c = .done j.kind c' ∧ c'.rest = post ++ ';' :: g ∧
      (∀ y ∈ tail, isBlank y ∧ y ≠ '\n') ∧ (∀ y ∈ g, isSpaceOrTab y) ∧
      (∀ y ∈ post, isSpaceOrTab y) ∧ c.rest.head?.any isBlank = false ∧
      Over InRow (.ofText (String.ofList line)) c := by
  obtain ⟨r, hdone⟩ := run_eq_ok.1 h
  obtain ⟨x, g, e, hcode, hg, hended, rfl⟩ := instruction_eq_done_iff.1 ⟨r, hdone, rfl⟩
  obtain ⟨lead, number, gap, body, post, c, c', hc, hbody, hpost, hspaces, hne, hdigits, hstart,
    hkind, hbefore⟩ := code_eq_done (ofText_of line) hcode
  have htext : line = lead ++ (number ++ ':' :: (gap ++ (body ++ (post ++ ';' :: (g ++ e))))) := by
    rw [← hpost, ← hbody, ← hc]
    exact String.toList_ofList.symm
  rw [htext] at hline
  simp only [mem_append, mem_cons, not_or] at hline hspaces
  obtain ⟨-, -, -, -, hbodyFree, hpostFree, -, -, hfree⟩ := hline
  obtain rfl := hended.eq_nil hfree
  rw [append_nil] at hpost htext
  have hblank {l : List Char} (hl : ∀ y ∈ l, isSpaceOrTab y) : ∀ y ∈ l, isBlank y :=
    fun y hy => isBlank_of_isSpaceOrTab (hl y hy)
  have hcodeOf : BodyLine.ofLine line = .code (trim (body ++ post)) := by
    have hsplit : line = lead ++ (number ++ ':' :: (gap ++ (body ++ post) ++ ';' :: g)) := by
      simp [htext]
    rw [hsplit, ofLine_numbered (hblank fun y hy => hspaces y (.inl (.inl hy))) hne ?_ (hblank hg),
      trim_append_left (hblank fun y hy => hspaces y (.inl (.inr hy)))]
    exact fun y hy => isDecimalDigit_of_isDigit (hdigits y hy)
  have hrest : c.rest = body ++ post ++ ';' :: g := by rw [hbody, hpost, append_assoc]
  have hhead := head?_of_instructionKind hkind hstart
  have htrim : trim (body ++ post) = trimEnd (body ++ post) := by
    rw [trim, trimStart_of_head]
    intro y hy
    rwa [hrest, head?_append, hy, Option.some_or, Option.any_some] at hhead
  obtain ⟨tail, hsplit, htail⟩ := exists_eq_dropEndWhile_append isBlank (body ++ post)
  refine ⟨trim (body ++ post), tail, post, g, c, c', hcodeOf, ?_, hkind, hpost, ?_, hg,
    fun y hy => hspaces y (.inr hy), hhead, hbefore⟩
  · rw [htrim, trimEnd, ← append_assoc, ← hsplit, hrest]
  · intro y hy
    refine ⟨htail y hy, ?_⟩
    rintro rfl
    have hmem : '\n' ∈ body ++ post := hsplit ▸ mem_append_right _ hy
    exact (mem_append.1 hmem).elim hbodyFree hpostFree

/-- A line without code begins with its semicolon. -/
theorem kind_eq_blank (hc : c.rest = tail ++ ';' :: g)
    (htail : ∀ y ∈ tail, isBlank y ∧ y ≠ '\n') (hhead : c.rest.head?.any isBlank = false)
    (h : instructionKind c = .done k r) : k = .blank := by
  have hfirst : c.rest.head? = some ';' := by
    rw [hc] at hhead ⊢
    cases tail with
    | nil => rfl
    | cons y tail =>
      rw [cons_append, head?_cons, Option.any_some,
        (htail y mem_cons_self).1] at hhead
      cases hhead
  rw [instructionKind_of_semicolon hfirst, Outcome.done.injEq] at h
  exact h.1.symm

/-- A row is read as an instruction of the kind that is read from its code. -/
theorem exists_parse_row {row T : List Char} (hplace : ∀ p q, v.position p = v.position q)
    (hgap : ∀ y ∈ g, isSpaceOrTab y) (hT : T.head?.any isSpaceOrTab = false)
    (hrow : row = [' ', ' ', ' ', '1', ':'] ++ (g ++ T))
    (h : ∀ d : Cursor, d.rest = T → ReadsKind d fun k => j.kind.view v = k.view v) :
    ∃ j', Instruction.parse (String.ofList row) = .ok j' ∧ j.view v = j'.view v := by
  obtain ⟨j', ⟨r, hdone, -⟩, hview⟩ := reaches_instruction
    (d := .ofText (String.ofList row)) (Q := fun k => j.kind.view v = k.view v) hgap hT
    (by rw [← hrow]; exact String.toList_ofList) fun d hd _ => h d hd
  refine ⟨j', run_eq_ok.2 ⟨r, hdone⟩, ?_⟩
  rw [Instruction.view, Instruction.view, hview, View.span, View.span,
    hplace j.span.start j'.span.start, hplace j.span.stop j'.span.stop]

theorem isSpaceOrTab_of_mem_blanksOf {k : Nat} : ∀ y ∈ blanksOf k, isSpaceOrTab y := by
  intro y hy
  rw [(mem_replicate.1 hy).2]
  rfl

/-- **A row is read as the instruction of its line.** -/
theorem parse_row {row : List Char} (hplace : ∀ p q, v.position p = v.position q)
    (hline : '\n' ∉ line) (hrow : RowOf (KeptLiterals v) line row)
    (h : Instruction.parse (String.ofList line) = .ok j) :
    ∃ j', Instruction.parse (String.ofList row) = .ok j' ∧ j.view v = j'.view v := by
  obtain ⟨code, tail, post, g, c, c', hcode, hc, hkind, hc', htail, hg, hpost, hhead, -⟩ :=
    ofLine_of_parse hline h
  have htrimmed : Trimmed code := trimmed_of_ofLine hcode
  cases hrow with
  | empty hempty =>
    rw [hempty] at hcode
    cases hcode
  | @code code' text n hcode' hlined hkept =>
    rw [hcode, BodyLine.code.injEq] at hcode'
    subst hcode'
    by_cases hne : code = []
    · subst hne
      obtain rfl : text = [] := by
        cases hlined with
        | same => rfl
        | branch hshape => cases hshape
        | otherwise haction => cases haction
      have hkind : j.kind = .blank := kind_eq_blank hc htail hhead hkind
      refine exists_parse_row (g := blanksOf n ++ [' ']) (T := [';']) hplace ?_ rfl
        (by simp [bodyRow]) fun d hd => ⟨.blank, [], ⟨d, ?_, hd⟩, by simp, by rw [hkind]⟩
      · exact forall_mem_append.2 ⟨isSpaceOrTab_of_mem_blanksOf, by decide⟩
      · exact instructionKind_of_semicolon (by rw [hd]; rfl)
    · refine exists_parse_row (g := blanksOf n) (T := text ++ [' ', ';']) hplace
        isSpaceOrTab_of_mem_blanksOf (head?_of_lined htrimmed hne hlined _) (by simp [bodyRow])
        fun d hd => ?_
      exact instructionKind_lined hplace htrimmed hne hc hd htail hg hpost ⟨c', hkind, hc'⟩ hlined
        (fun hmem => hline (mem_of_ofLine hcode hmem)) hkept

/-! ## Bodies -/

/-- A line that holds an instruction begins with its number. -/
theorem exists_digit_of_parse (h : Instruction.parse (String.ofList line) = .ok j) :
    ∃ lead x rest, line = lead ++ x :: rest ∧ (∀ y ∈ lead, isSpaceOrTab y) ∧
      x.isDigit := by
  obtain ⟨r, hdone⟩ := run_eq_ok.1 h
  obtain ⟨x, g, e, hcode, -, -, rfl⟩ := instruction_eq_done_iff.1 ⟨r, hdone, rfl⟩
  obtain ⟨lead, number, gap, body, post, c, c', hc, -, -, hspaces, hne, hdigits, -, -, -⟩ :=
    code_eq_done (ofText_of line) hcode
  obtain ⟨x, number, rfl⟩ := exists_cons_of_ne_nil hne
  refine ⟨lead, x, number ++ ':' :: (gap ++ c.rest), ?_, fun y hy => hspaces y (by simp [hy]),
    hdigits x mem_cons_self⟩
  rw [← cons_append, ← hc]
  exact String.toList_ofList.symm

theorem isSpaceOrTab_of_isDigit {x : Char} (h : x.isDigit) : isSpaceOrTab x = false := by
  rw [← Bool.not_eq_true]
  intro hspace
  have hblank := (isDecimalDigit_of_isDigit h).2
  rw [isBlank_of_isSpaceOrTab hspace] at hblank
  cases hblank

theorem head?_dropWhile_of_parse (h : Instruction.parse (String.ofList line) = .ok j)
    (t : List Char) :
    ∃ x, x.isDigit ∧ ((line ++ t).dropWhile isSpaceOrTab).head? = some x := by
  obtain ⟨lead, x, rest, rfl, hlead, hx⟩ := exists_digit_of_parse h
  refine ⟨x, hx, ?_⟩
  rw [append_assoc, dropWhile_append_of_pos hlead, cons_append,
    dropWhile_cons_of_neg (by simp [isSpaceOrTab_of_isDigit hx]), head?_cons]

/-- A marker begins with its slash. -/
theorem head?_of_atMarker {m : String} {w : List Char} (hm : m.toList = '/' :: w)
    (h : atMarker m s) : (s.dropWhile isSpaceOrTab).head? = some '/' := by
  rw [atMarker, hm] at h
  obtain ⟨w', hw⟩ := exists_slash_of_same h
  have hhead := congrArg List.head? hw
  have hpos : m.length ≠ 0 := by simp [← String.length_toList, hm]
  rwa [head?_take, if_neg hpos] at hhead

/-- A line that holds an instruction is read in the same way where a break follows it. -/
theorem reaches_instruction_of_parse {b : List Char} (hplace : ∀ p q, v.position p = v.position q)
    (hline : '\n' ∉ line) (hb : IsLineBreak b) (hd : d.rest = line ++ (b ++ s))
    (h : Instruction.parse (String.ofList line) = .ok j) :
    ∃ i, Reaches instruction d i s ∧ j.view v = i.view v := by
  obtain ⟨r, hdone⟩ := run_eq_ok.1 h
  obtain ⟨x, g, e, hcode, hg, hended, rfl⟩ := instruction_eq_done_iff.1 ⟨r, hdone, rfl⟩
  obtain ⟨u, hu, -⟩ := exists_closedLine (ofText_of line) hg hcode
  have htext : line = u ++ ';' :: (g ++ e) := by
    rw [← hu]
    exact String.toList_ofList.symm
  obtain rfl := hended.eq_nil fun hmem => hline (by simp [htext, hmem])
  refine reaches_instruction_sameRow (uniform_unplaced hplace) trivial hg (hended.closing hg)
    (.inl ⟨b, hb, rfl⟩) hu ?_ hcode
  rw [hd, htext]
  simp

/-- **Lines that hold instructions are read as a body**, those of spaces and tabs left aside. -/
theorem reaches_bodyLines {rows : List (List Char)} {js : List Instruction}
    (hplace : ∀ p q, v.position p = v.position q) (h : Opens s rows d.rest)
    (hs : atMarker "/POS" s)
    (hheld : List.Forall₂ (fun row j => Instruction.parse (String.ofList row) = .ok j)
      (rows.filter fun row => !row.all isSpaceOrTab) js) :
    ∃ is, Reaches bodyLines d is s ∧ is.map (Instruction.view v) = js.map (Instruction.view v) := by
  generalize hfilter : (rows.filter fun row => !row.all isSpaceOrTab) = held at hheld
  -- one instruction at a time, with the empty lines in front of it
  induction hheld generalizing rows d with
  | nil =>
    have hempty : ∀ l ∈ rows, ∀ x ∈ l, isSpaceOrTab x := by
      simpa using filter_eq_nil_iff.1 hfilter
    obtain ⟨r, hr, hrest⟩ :=
      reaches_emptyLines h hempty (by rw [head?_of_atMarker (m := "/POS") rfl hs]; rfl)
    refine ⟨[], ⟨r, ?_, hrest⟩, rfl⟩
    rw [bodyLines, nested]
    refine bind_of_done hr <| bind_eq_done.2 ⟨r, r, rfl, ?_⟩
    rw [if_pos (by simp [hrest, hs])]
    rfl
  | @cons row j held js hrow _ ih =>
    obtain ⟨empty, behind, rfl, hempty, -, hbehind⟩ := filter_eq_cons_iff.1 hfilter
    obtain ⟨s₁, hd₁, hd₂⟩ := h.exists_of_append
    cases hd₂ with
    | @cons _ b t _ hclosed hb hd₃ =>
      obtain ⟨x, hx, hstart⟩ := head?_dropWhile_of_parse hrow (b ++ t)
      have hmarker {m : String} {w : List Char} (hm : m.toList = '/' :: w) :
          atMarker m (row ++ (b ++ t)) = false := by
        rw [← Bool.not_eq_true]
        intro hat
        rw [head?_of_atMarker hm hat, Option.some.injEq] at hstart
        rw [← hstart] at hx
        cases hx
      have hbreak : isBreak x = false := by
        rw [← Bool.not_eq_true]
        intro hbreak
        rw [delimiter_isBreak.digit hbreak] at hx
        cases hx
      obtain ⟨c₁, h₁, hc₁⟩ := reaches_emptyLines hd₁ (by simpa using hempty)
        (by rw [hstart, Option.any_some, hbreak])
      obtain ⟨i, ⟨c₂, hi, hc₂⟩, hview⟩ :=
        reaches_instruction_of_parse hplace hclosed.feedFree hb hc₁ hrow
      obtain ⟨is, ⟨r, his, hr⟩, hviews⟩ := ih (hc₂ ▸ hd₃) hbehind
      refine ⟨i :: is, ⟨r, ?_, hr⟩, by rw [map_cons, map_cons, hview, hviews]⟩
      have hshort : c₂.rest.length < d.rest.length := by
        have hlength := hd₁.suffix.length_le
        have hpos := length_pos_of_ne_nil hb.ne_nil
        rw [length_append, length_append] at hlength
        rw [hc₂]
        omega
      have hend : c₁.atEnd = false := by
        simp [Cursor.atEnd, hc₁, hb.ne_nil]
      rw [bodyLines, nested]
      refine bind_of_done h₁ <| bind_eq_done.2 ⟨c₁, c₁, rfl, ?_⟩
      rw [if_neg (by simp [hend, hc₁, hmarker (m := "/POS") rfl, hmarker (m := "/END") rfl])]
      exact bind_of_done hi <| bind_of_done ((if_pos hshort).trans his) rfl

/-- The rows of a body hold the instructions of its lines. -/
theorem exists_held_rows {lines rows : List (List Char)} {is : List Instruction} {n : Nat}
    (hplace : ∀ p q, v.position p = v.position q) (hlines : ∀ l ∈ lines, '\n' ∉ l)
    (hrows : List.Forall₂ (RowOf (KeptLiterals v)) lines rows)
    (hbody : List.Forall₂ HeldBy
      ((lines.zipIdx n).filter fun line => !line.1.all isSpaceOrTab) is) :
    ∃ js, List.Forall₂ (fun row j => Instruction.parse (String.ofList row) = .ok j)
        (rows.filter fun row => !row.all isSpaceOrTab) js ∧
      js.map (Instruction.view v) = is.map (Instruction.view v) := by
  induction hrows generalizing n is with
  | nil =>
    cases hbody
    exact ⟨[], .nil, rfl⟩
  | @cons line row lines rows hrow _ ih =>
    obtain ⟨hline, hlines⟩ := forall_mem_cons.1 hlines
    rw [zipIdx_cons] at hbody
    by_cases hempty : line.all isSpaceOrTab
    · have hblank : allBlank line := by
        rw [all_eq_true] at hempty
        exact all_eq_true.2 fun x hx => isBlank_of_isSpaceOrTab (hempty x hx)
      obtain rfl : row = [] := by
        cases hrow with
        | empty => rfl
        | code n hcode =>
          rw [BodyLine.ofLine, if_pos hblank] at hcode
          cases hcode
      rw [filter_cons_of_neg (by simpa using hempty)] at hbody
      rw [filter_cons_of_neg (by simp)]
      exact ih hlines hbody
    · rw [filter_cons_of_pos (by simpa using hempty)] at hbody
      obtain ⟨_, is, ⟨j, hj, rfl⟩, hrest, rfl⟩ := List.forall₂_cons_left_iff.1 hbody
      obtain ⟨j', hj', hview⟩ := parse_row hplace hline hrow hj
      obtain ⟨js, hjs, hviews⟩ := ih hlines hrest
      obtain ⟨lead, x, rest, hdigit, -, hx⟩ := exists_digit_of_parse hj'
      rw [filter_cons_of_pos (by simp [hdigit, isSpaceOrTab_of_isDigit hx])]
      refine ⟨j' :: js, .cons hj' hjs, ?_⟩
      rw [map_cons, map_cons, hviews, Instruction.view_view, View.comp_lowered hplace,
        hview]

/-- **A body that is laid out is read as the body that it was written for.** -/
theorem reaches_layoutBody {lines codes : List (List Char)} {is : List Instruction}
    {tabSize n : Nat} (hplace : ∀ p q, v.position p = v.position q)
    (hlines : ∀ l ∈ lines, '\n' ∉ l) (hbody : BodyOf n lines is)
    (hcodes : codes = lines.map fun line => (BodyLine.ofLine line).text)
    (hkept : ∀ code text k, (code, blanksOf k ++ text) ∈ codes.zip (alignCodes codes) →
      KeptLiterals v code text)
    (h : Opens s (layoutBody tabSize (lines.map BodyLine.ofLine)) d.rest)
    (hs : atMarker "/POS" s) :
    ∃ is', Reaches bodyLines d is' s ∧
      is'.map (Instruction.view v) = is.map (Instruction.view v) := by
  obtain ⟨js, hheld, hviews⟩ :=
    exists_held_rows hplace hlines (forall₂_rowOf tabSize hcodes hkept) hbody.held
  obtain ⟨is', hreads, hviews'⟩ := reaches_bodyLines hplace h hs hheld
  exact ⟨is', hreads, hviews'.trans hviews⟩

end RobotSource.Listing.Grammar
