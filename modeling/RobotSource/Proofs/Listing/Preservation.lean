import RobotSource.Proofs.Listing.Grammar.Row
import RobotSource.Proofs.Listing.Stability
import RobotSource.Proofs.Parsing.Capitals
/-!
# Laying out keeps the program

The layout goes by the text of the lines and a reader goes by the grammar, so each of them finds the
sections of a listing in its own way. The two differ in what may stand in front of a marker: any
white space for the layout, spaces and tabs for the grammar. Where they agree on the beginning of the
body, the sections of the layout hold the program of the listing (`Sections.Divides.exists_holds`),
and so does the text that is written from them (`Sections.Holds.exists_parse`).

Lining up the branches of a select goes by the first equals sign and the first comma of a line, also
where these stand inside a literal. White space around them is lost then, so the program is the same
but for the white space inside literals that hold such a mark; and it is the same altogether where
lining up leaves the literals as they are (`LiteralsKept`).
-/

namespace RobotSource.Listing

open Text Parsing Parsing.Parser Grammar List

variable {l s t word : List Char} {lines body : List (List Char)}
variable {v : View}
variable {options : LayoutOptions} {defaultTab : Nat} {p : Program} {text : String}
variable {codes : List (List Char)}

/-! ## Markers for the layout and for the grammar -/

/-- A word that differs from a marker at most in case is the marker in upper case. -/
theorem flatMap_upperCase_of_same {w m : List Char} (hm : Ascii m) (hupper : m.map Char.toUpper = m)
    (h : sameCharsIgnoringCase w m) : w.flatMap upperCase = m := by
  have hascii := ascii_of_same hm h
  induction w generalizing m with
  | nil =>
    rw [sameCharsIgnoringCase, beq_iff_eq] at h
    simpa using h
  | cons x w ih =>
    cases m with
    | nil => cases h
    | cons y m =>
      rw [sameCharsIgnoringCase, beq_iff_eq, map_cons, map_cons, List.cons.injEq] at h
      rw [map_cons, List.cons.injEq] at hupper
      have hw : w.flatMap upperCase = m := ih hm.tail hupper.2 (beq_iff_eq.2 h.2) hascii.tail
      have hlower : y.toLower.toNat < 128 := toLower_lt (hm y mem_cons_self)
      have hx : x.toUpper = y := by
        rcases eq_or_eq_of_toLower_eq hlower h.1 with hx | hx <;>
          rcases eq_or_eq_of_toLower_eq hlower rfl with hy | hy
        · rw [hx, ← hy, hupper.1]
        · rw [hx, ← hy]
        · rw [hx, ← hy, hupper.1, hupper.1]
        · rw [hx, ← hy, hupper.1]
      rw [flatMap_cons, hw, upperCase, if_pos (hascii x mem_cons_self), hx]
      rfl

/-- What the layout sees of a line that begins with a marker. -/
theorem isMarkerLine_eq {m m' : String} {g w v rest : List Char} (hslash : m.toList = '/' :: v)
    (hm : Ascii m.toList) (hupper : m.toList.map Char.toUpper = m.toList)
    (hg : ∀ x ∈ g, isSpaceOrTab x) (h : sameCharsIgnoringCase w m.toList) :
    isMarkerLine m' (g ++ w ++ rest) =
      m'.toList.isPrefixOf (m.toList ++ rest.flatMap upperCase) := by
  obtain ⟨w', hw⟩ := exists_slash_of_same (hslash ▸ h)
  have hstart : trimStart (g ++ w ++ rest) = w ++ rest := by
    rw [trimStart, append_assoc,
      dropWhile_append_of_pos fun x hx => isBlank_of_isSpaceOrTab (hg x hx), hw,
      cons_append, dropWhile_cons_of_neg (by decide)]
  rw [isMarkerLine, hstart, flatMap_append, flatMap_upperCase_of_same hm hupper h]

/-- The marker of the positions is one for the layout. -/
theorem isMarkerLine_of_atMarker (h : atMarker "/POS" l) : isMarkerLine "/POS" l := by
  have hsplit : l = l.takeWhile isSpaceOrTab ++
      (l.dropWhile isSpaceOrTab).take "/POS".length ++
        (l.dropWhile isSpaceOrTab).drop "/POS".length := by
    rw [append_assoc, take_append_drop, takeWhile_append_dropWhile]
  rw [hsplit, isMarkerLine_eq (m := "/POS") rfl (by decide) (by decide)
    (fun x hx => all_eq_true.1 all_takeWhile x hx) h, isPrefixOf_iff_prefix]
  exact prefix_append _ _

/-- A blank line is no marker. -/
theorem isMarkerLine_of_allBlank {m : String} (hm : m.toList ≠ []) (h : allBlank l) :
    isMarkerLine m l = false := by
  rw [← Bool.not_eq_true]
  intro hmarker
  rw [allBlank_of_isMarkerLine hm hmarker] at h
  cases h

/-- A line that holds an instruction is no marker. -/
theorem isMarkerLine_of_parse {j : Instruction}
    (h : Instruction.parse (String.ofList l) = .ok j) : isMarkerLine "/POS" l = false := by
  obtain ⟨lead, x, rest, rfl, hlead, hx⟩ := exists_digit_of_parse h
  have hstart : trimStart (lead ++ x :: rest) = x :: rest := by
    rw [trimStart, dropWhile_append_of_pos fun y hy => isBlank_of_isSpaceOrTab (hlead y hy),
      dropWhile_cons_of_neg (by simp [(isDecimalDigit_of_isDigit hx).2])]
  have hupper : upperCase x = [x] := by
    rw [upperCase, if_pos (lt_of_isNameChar (by simp [isNameChar, Char.isAlphanum, hx])),
      toUpper_of_isDigit hx]
  have hslash : '/' ≠ x := by
    rintro rfl
    cases hx
  rw [isMarkerLine, hstart, flatMap_cons, hupper, singleton_append,
    show "/POS".toList = ['/', 'P', 'O', 'S'] from rfl, isPrefixOf_cons_cons,
    beq_eq_false_iff_ne.2 hslash, Bool.false_and]

/-- No line of a body is a marker. -/
theorem Grammar.BodyOf.isMarkerLine {n : Nat} {is : List Instruction} (h : BodyOf n body is) :
    ∀ l ∈ body, isMarkerLine "/POS" l = false := by
  intro l hl
  by_cases hempty : l.all isSpaceOrTab
  · refine isMarkerLine_of_allBlank (by decide) (all_eq_true.2 fun x hx => ?_)
    exact isBlank_of_isSpaceOrTab (all_eq_true.1 hempty x hx)
  · obtain ⟨k, hk, rfl⟩ := mem_iff_getElem.1 hl
    have hmem : (body[k], n + k) ∈
        (body.zipIdx n).filter fun line => !line.1.all isSpaceOrTab := by
      refine mem_filter.2 ⟨mem_iff_getElem.2 ⟨k, by simpa using hk, by simp⟩, ?_⟩
      simpa using hempty
    have hmarked := (List.forall₂_and_left _ _).1 <| h.held.imp fun line i hline =>
      (⟨isMarkerLine_of_parse hline.choose_spec.1, hline⟩ :
        Listing.isMarkerLine "/POS" line.1 = false ∧ HeldBy line i)
    exact hmarked.1 _ hmem

/-! ## The end of a listing -/

/-- The lines of the end: the marker, and white space behind it. -/
def EndLines (word : List Char) (lines : List (List Char)) : Prop :=
  ∃ post blank, lines = (word ++ post) :: blank ∧ (∀ x ∈ post, isSpacing x = true) ∧
    ∀ l ∈ blank, ∀ x ∈ l, isSpacing x = true

theorem allBlank_of_isSpacing (h : ∀ x ∈ l, isSpacing x) : allBlank l := by
  refine all_eq_true.2 fun x hx => ?_
  have hspacing := h x hx
  simp only [isSpacing, Bool.or_eq_true, beq_iff_eq] at hspacing
  rcases hspacing with ((rfl | rfl) | rfl) | rfl <;> decide

theorem listingLines_of_opens (h : Opens s lines t) (hs : s ≠ []) :
    listingLines t = lines ++ listingLines s := by
  have hlast : t.getLast? = s.getLast? := by
    obtain ⟨u, rfl⟩ := h.suffix
    exact getLast?_append_of_ne_nil _ hs
  rw [listingLines, listingLines, hlast, h.splitLines_unifyBreaks]
  split
  · exact dropLast_append_of_ne_nil (splitLines_ne_nil _)
  · rfl

/-- A word of the end is all of its line up to white space. -/
theorem Grammar.Ends.notMem (h : Ends word t) : ∀ x ∈ word, isBreak x = false := by
  obtain ⟨-, -, -, g, w, rfl, hg, hsame⟩ := h
  intro x hx
  rcases mem_append.1 hx with hx | hx
  · exact not_isBreak_of_isSpaceOrTab (hg x hx)
  · exact not_isBreak_of_same (by decide) hsame x hx

theorem Grammar.Ends.endLines (h : Ends word t) : EndLines word (listingLines t) := by
  have hfree := h.notMem
  have hnotMem {x : Char} (hx : isBreak x) : x ∉ word := fun hmem => by
    rw [hfree x hmem] at hx
    cases hx
  obtain ⟨rest, rfl, hrest, -⟩ := h
  obtain ⟨post, blank, hsplit⟩ := exists_cons_of_ne_nil (splitLines_ne_nil (unifyBreaks rest))
  have hlines : splitLines (unifyBreaks (word ++ rest)) = (word ++ post) :: blank := by
    rw [unifyBreaks_append (hnotMem rfl), splitLines_append (hnotMem rfl) hsplit]
  have hspacing : ∀ l ∈ post :: blank, ∀ x ∈ l, isSpacing x := fun l hl x hx =>
    hrest x (mem_of_mem_unifyBreaks (mem_of_mem_splitLines (hsplit ▸ hl) hx))
  obtain ⟨hpost, hblank⟩ := forall_mem_cons.1 hspacing
  rw [listingLines, hlines]
  split
  · -- the text ends with a break, so a further piece stands behind the marker
    rename_i hlast
    cases blank with
    | nil =>
      obtain ⟨init, last, heq, -, hfeed, hpieces⟩ := exists_splitLines_eq (unifyBreaks (word ++ rest))
      obtain rfl : init = [] := by
        have hlength := congrArg List.length (hpieces.symm.trans hlines)
        simpa using hlength
      rw [← getLast?_unifyBreaks, heq] at hlast
      exact absurd (mem_of_getLast? hlast) hfeed
    | cons next blank =>
      exact ⟨post, (next :: blank).dropLast, rfl, hpost,
        fun l hl => hblank l (mem_of_mem_dropLast hl)⟩
  · exact ⟨post, blank, rfl, hpost, hblank⟩

theorem EndLines.ends (h : EndLines word lines) (hword : Ends word t) {newline final : List Char}
    (hnewline : ∀ x ∈ newline, isSpacing x) (hfinal : ∀ x ∈ final, isSpacing x) :
    Ends word (joinLines newline lines ++ final) := by
  obtain ⟨post, blank, rfl, hpost, hblank⟩ := h
  obtain ⟨-, -, -, hshape⟩ := hword
  refine ⟨joinLines newline (post :: blank) ++ final, ?_, ?_, hshape⟩
  · rw [joinLines_append_cons, append_assoc]
  · intro x hx
    rcases mem_append.1 hx with hx | hx
    · rcases mem_joinLines hx with hx | ⟨l, hl, hx⟩
      · exact hnewline x hx
      · exact (forall_mem_cons (p := fun l => ∀ x ∈ l, isSpacing x = true)).2
          ⟨hpost, hblank⟩ l hl x hx
    · exact hfinal x hx

theorem EndLines.isMarkerLine (h : EndLines word lines) (hword : Ends word t) :
    ∀ l ∈ lines, isMarkerLine "/POS" l = false := by
  obtain ⟨post, blank, rfl, hpost, hblank⟩ := h
  obtain ⟨-, -, -, g, w, rfl, hg, hsame⟩ := hword
  refine forall_mem_cons.2 ⟨?_, fun l hl => ?_⟩
  · rw [isMarkerLine_eq (m := "/END") rfl (by decide) (by decide) hg hsame]
    rfl
  · exact isMarkerLine_of_allBlank (by decide) (allBlank_of_isSpacing (hblank l hl))

/-- Dropping blank lines leaves the end in its place. -/
theorem EndLines.dropBlankEnd (h : EndLines word lines) (hword : Ends word t)
    (before : List (List Char)) :
    ∃ lines', dropBlankEnd (before ++ lines) = before ++ lines' ∧ EndLines word lines' := by
  obtain ⟨post, blank, rfl, hpost, hblank⟩ := h
  have hmark : allBlank (word ++ post) = false := by
    obtain ⟨-, -, -, g, w, rfl, -, hsame⟩ := hword
    obtain ⟨w', rfl⟩ := exists_slash_of_same hsame
    simp [allBlank, show isBlank '/' = false by decide]
  exact ⟨_, dropBlankEnd_append_cons before hmark, post, _, rfl, hpost,
    fun l hl => hblank l (dropBlankEnd_isPrefix.subset hl)⟩

/-! ## The sections of a listing -/

/-- Two ways to split a list at the first line of a kind are the same. -/
theorem split_unique {p : List Char → Bool} {a b a' b' : List (List Char)} {x x' : List Char}
    (h : a ++ x :: b = a' ++ x' :: b') (hx : p x) (hx' : p x')
    (ha : ∀ y ∈ a, p y = false) (ha' : ∀ y ∈ a', p y = false) : a = a' ∧ x = x' ∧ b = b' := by
  have hfirst := findIdx?_eq_some_iff_split.2 ⟨a, x, b, rfl, rfl, hx, ha⟩
  rw [h, findIdx?_eq_some_iff_split.2 ⟨a', x', b', rfl, rfl, hx', ha'⟩, Option.some.injEq] at hfirst
  obtain ⟨rfl, hrest⟩ := append_inj h hfirst.symm
  obtain ⟨rfl, rfl⟩ := List.cons.inj hrest
  exact ⟨rfl, rfl, rfl⟩

/-- The layout and the grammar take the same line for the beginning of the body. -/
abbrev SameMain (lines : List (List Char)) : Prop :=
  lines.findIdx? (isMarkerLine "/MN") = lines.findIdx? (atMarker "/MN")

/-- **The layout finds the head where the grammar finds it**, if the two agree on its last line. -/
theorem Sections.Divides.head_eq {s : Sections} {before rest : List (List Char)} {main : List Char}
    (h : s.Divides (before ++ main :: rest)) (hbefore : ∀ l ∈ before, atMarker "/MN" l = false)
    (hat : atMarker "/MN" main) (hmain : SameMain (before ++ main :: rest)) :
    s.head = before ++ [main] ∧ s.body ++ s.tail = rest := by
  obtain ⟨heq, ⟨before', main', hhead, hmain', hbefore'⟩, -, -⟩ := h
  have hlines : before ++ main :: rest = before' ++ main' :: (s.body ++ s.tail) := by
    rw [heq, Sections.allLines, hhead]
    simp
  rw [SameMain, findIdx?_eq_some_iff_split.2 ⟨before, main, rest, rfl, rfl, hat, hbefore⟩, hlines,
    findIdx?_eq_some_iff_split.2 ⟨before', main', _, rfl, rfl, hmain', hbefore'⟩,
    Option.some.injEq] at hmain
  obtain ⟨rfl, hrest⟩ := append_inj hlines hmain.symm
  obtain ⟨rfl, rfl⟩ := List.cons.inj hrest
  exact ⟨hhead, rfl⟩

/-- The sections hold a program: what is read from each of them by itself is its part of it. The tail
is made of the lines of the positions and those of the end. -/
structure Sections.Holds (s : Sections) (p : Program) (positions last : List (List Char))
    (word : List Char) : Prop where
  head : ReadAs headPart s.head ((p.name, p.subType), p.comment)
  body : BodyOf s.head.length s.body p.instructions
  tail : s.tail = positions ++ last
  closed : ∀ l ∈ s.head ++ positions, ClosedLine l
  marked : ∀ e t, Opens e positions t → atMarker "/POS" t = true
  positions : ∀ d e, Opens e positions d.rest → atMarker "/END" e = true →
    Reaches positionData d () e
  last : EndLines word last
  ends : ∃ t, Ends word t

/-- **The sections of a listing hold its program.** -/
theorem Sections.Divides.exists_holds {s : Sections}
    (h : s.Divides (listingLines text.toList)) (hparse : Program.parse text = .ok p)
    (hmain : SameMain (listingLines text.toList)) :
    ∃ positions last word, s.Holds p positions last word := by
  obtain ⟨before, main, body, c₂, c₃, stop, r, hlines, hbefore, hat, hread, hbody, -, hpositions,
    hending⟩ := exists_lines_of_parse hparse
  obtain ⟨word, hends⟩ := ends_of_ending hending
  have hall : listingLines text.toList = before ++ main :: (body ++ listingLines c₂.rest) := by
    rw [listingLines_of_opens hlines (ne_nil_of_ending hpositions hending)]
    simp
  rw [hall] at h hmain
  obtain ⟨hhead, hrest⟩ := h.head_eq hbefore hat hmain
  obtain ⟨q, behind', htail, hq⟩ := h.positions
  by_cases hpos : atMarker "/POS" c₂.rest
  · obtain ⟨first, behind, hopens, hfirst, hreads⟩ := positionData_lines hpos hpositions
    rw [listingLines_of_opens hopens hends.ne_nil, htail, cons_append] at hrest
    obtain ⟨hsame, rfl, rfl⟩ := split_unique hrest hq (isMarkerLine_of_atMarker hfirst)
      (fun l hl => h.noPositions l (mem_append_right _ hl)) hbody.isMarkerLine
    refine ⟨q :: behind, listingLines c₃.rest, word, ?_⟩
    exact {
      head := hhead ▸ hread
      body := by rwa [hsame, hhead, length_append]
      tail := htail
      closed := by
        intro l hl
        rcases mem_append.1 hl with hl | hl
        · exact hlines.closedLine l (mem_append_left _ (hhead ▸ hl))
        · exact hopens.closedLine l hl
      marked := by
        intro e t hpositions
        cases hpositions with
        | cons _ hb _ => rw [atMarker_append (by decide) ⟨_, _, hb, rfl⟩, hfirst]
      positions := hreads
      last := hends.endLines
      ends := ⟨_, hends⟩ }
  · -- without positions, the layout would find no marker of theirs
    rw [positionData_of_not_atMarker (by simpa using hpos), Outcome.done.injEq] at hpositions
    rw [← hpositions.2] at hends
    have hmem : q ∈ body ++ listingLines c₂.rest := by
      rw [← hrest, htail]
      simp
    have hnone : isMarkerLine "/POS" q = false :=
      (mem_append.1 hmem).elim (hbody.isMarkerLine q) (hends.endLines.isMarkerLine hends q)
    rw [hq] at hnone
    cases hnone

section
variable {s : Sections} {p : Program} {positions last : List (List Char)} {newline final : List Char}
variable {defaultTab : Nat} {options : LayoutOptions}

/-- What is written from the sections begins with the head, the rows and the positions, and it ends
as a listing does. -/
theorem Sections.Holds.exists_opens (h : s.Holds p positions last word)
    (hfeed : ∀ l ∈ s.body, '\n' ∉ l) (hnewline : IsLineBreak newline)
    (hfinal : ∀ x ∈ final, isSpacing x) :
    ∃ e, Opens e (s.head ++ (s.laidOut defaultTab options).body ++ positions)
        (joinLines newline (s.laidOut defaultTab options).allLines ++ final) ∧ Ends word e := by
  obtain ⟨t, hword⟩ := h.ends
  obtain ⟨last', htail, hlast⟩ : ∃ last', (s.laidOut defaultTab options).tail = positions ++ last' ∧
      EndLines word last' := by
    simp only [Sections.laidOut, h.tail]
    split
    · exact h.last.dropBlankEnd hword positions
    · exact ⟨last, rfl, h.last⟩
  have hspacing : ∀ x ∈ newline, isSpacing x := by
    rcases hnewline with rfl | rfl <;> decide
  have hlines : ∀ l ∈ s.head ++ (s.laidOut defaultTab options).body ++ positions, ClosedLine l := by
    intro l hl
    rcases mem_append.1 hl with hl | hl
    · rcases mem_append.1 hl with hl | hl
      · exact h.closed l (mem_append_left _ hl)
      · exact ⟨feedFree_row hfeed hl, getLast?_row hl⟩
    · exact h.closed l (mem_append_right _ hl)
  have hne : last' ≠ [] := by
    obtain ⟨post, blank, rfl, -⟩ := hlast
    exact cons_ne_nil _ _
  refine ⟨joinLines newline last' ++ final, ?_, hlast.ends hword hspacing hfinal⟩
  rw [Sections.allLines, htail, ← append_assoc _ positions]
  exact .of_joinLines hnewline hlines hne

/-- **What is written from the sections holds the same program**, as far as literals are kept. -/
theorem Sections.Holds.exists_parse (h : s.Holds p positions last word)
    (hplace : ∀ p q, v.position p = v.position q) (hfeed : ∀ l ∈ s.body, '\n' ∉ l)
    (hcodes : codes = s.body.map fun line => (BodyLine.ofLine line).text)
    (hkept : ∀ code text k, (code, blanksOf k ++ text) ∈ codes.zip (alignCodes codes) →
      KeptLiterals v code text) (hnewline : IsLineBreak newline)
    (hfinal : ∀ x ∈ final, isSpacing x) : ∃ p', Program.parse (String.ofList
        (joinLines newline (s.laidOut defaultTab options).allLines ++ final)) = .ok p' ∧
      p'.view v = p.view v := by
  obtain ⟨e, hopens, hends⟩ : ∃ e,
      Opens e (s.head ++ (s.laidOut defaultTab options).body ++ positions)
        (joinLines newline (s.laidOut defaultTab options).allLines ++ final) ∧ Ends word e :=
    h.exists_opens hfeed hnewline hfinal
  obtain ⟨t₂, hopens, hpositions⟩ := hopens.exists_of_append
  obtain ⟨t₁, hhead, hrows⟩ := hopens.exists_of_append
  -- section by section, each with the cursor that the one before it leaves
  obtain ⟨c₁, hdone₁, hc₁⟩ := h.head (.ofText (String.ofList _)) t₁
    (by rw [Cursor.ofText, String.toList_ofList]; exact hhead)
  obtain ⟨is, ⟨c₂, hdone₂, hc₂⟩, hviews⟩ := reaches_layoutBody hplace hfeed h.body hcodes hkept
    (hc₁ ▸ hrows) (h.marked _ _ hpositions)
  obtain ⟨c₃, hdone₃, hc₃⟩ := h.positions c₂ _ (hc₂ ▸ hpositions) hends.atMarker
  obtain ⟨stop, r, hdone₄⟩ := exists_ending (hc₃ ▸ hends)
  refine ⟨_, run_eq_ok.2 ⟨r, program_eq_done_iff.2 ⟨_, _, is, stop, c₁, c₂, c₃, hdone₁, hdone₂,
    hdone₃, hdone₄, rfl⟩⟩, ?_⟩
  simp only [Program.view, hviews, Program.mk.injEq, true_and, View.span, Span.mk.injEq]
  exact ⟨hplace _ _, hplace _ _⟩

end

/-! ## The program of a listing that is laid out -/

/-- Lining up leaves the literals of every body line as they are. -/
def LiteralsKept (text : List Char) : Prop :=
  ∀ s ∈ Sections.ofLines? (listingLines text),
    (alignCodes (s.body.map fun line => (BodyLine.ofLine line).text)).map literals =
      (s.body.map fun line => (BodyLine.ofLine line).text).map literals

instance (text : List Char) : Decidable (LiteralsKept text) :=
  inferInstanceAs (Decidable (∀ s ∈ Sections.ofLines? (listingLines text), _))

/-- The literals of a line are those of what is written for it. -/
theorem keptLiterals_of_map_eq {code text : List Char} {k : Nat}
    (h : (alignCodes codes).map literals = codes.map literals)
    (hmem : (code, blanksOf k ++ text) ∈ codes.zip (alignCodes codes)) :
    KeptLiterals v code text := by
  obtain ⟨i, hi, heq⟩ := mem_iff_getElem.1 hmem
  rw [length_zip, Nat.lt_min] at hi
  obtain ⟨hi, hi'⟩ := hi
  rw [getElem_zip, Prod.mk.injEq] at heq
  have hliterals : literals (blanksOf k ++ text) = literals code := by
    rw [← heq.1, ← heq.2]
    simpa [hi, hi'] using congrArg (·[i]?) h
  refine .inr ?_
  rw [← hliterals, literals_append]
  intro x hx
  rw [(mem_replicate.1 hx).2]
  rfl

/-- A listing that is laid out is written from sections that hold its program. -/
theorem exists_holds_of_layoutChars?
    {out : List Char} (h : Program.parse text = .ok p)
    (hout : layoutChars? defaultTab options text.toList = some out)
    (hmain : SameMain (listingLines text.toList)) :
    ∃ (s : Sections) (positions last : List (List Char)) (word newline final : List Char),
      s.Divides (listingLines text.toList) ∧ s.Holds p positions last word ∧
      (∀ l ∈ s.body, '\n' ∉ l) ∧ IsLineBreak newline ∧ (∀ x ∈ final, isSpacing x) ∧
      out = joinLines newline (s.laidOut defaultTab options).allLines ++ final := by
  obtain ⟨s, hdivides, rfl⟩ := exists_divides_of_layoutChars? hout
  obtain ⟨positions, last, word, hholds⟩ := hdivides.exists_holds h hmain
  have hbreak : IsLineBreak (lineBreakOf text.toList) := by
    rw [lineBreakOf]
    split
    · exact .inr rfl
    · exact .inl rfl
  refine ⟨s, positions, last, word, _, _, hdivides, hholds, fun l hl => ?_, hbreak, ?_, rfl⟩
  · have hmem : l ∈ listingLines text.toList := by
      rw [hdivides.lines_eq]
      simp [Sections.allLines, hl]
    exact listingLines_feedFree hmem
  · split
    · rcases hbreak with hbreak | hbreak <;> rw [hbreak] <;> decide
    · exact fun x hx => by cases hx

theorem exists_parse_layoutChars
    {out : List Char} (hplace : ∀ p q, v.position p = v.position q)
    (h : Program.parse text = .ok p) (hout : layoutChars? defaultTab options text.toList = some out)
    (hmain : SameMain (listingLines text.toList))
    (hkept : (∀ a b : String, Alike a.toList b.toList → v.literal a = v.literal b) ∨
      LiteralsKept text.toList) :
    ∃ p', Program.parse (String.ofList out) = .ok p' ∧ p'.view v = p.view v := by
  obtain ⟨s, positions, last, word, newline, final, hdivides, hholds, hfeed, hbreak, hfinal, rfl⟩ :=
    exists_holds_of_layoutChars? h hout hmain
  refine hholds.exists_parse hplace hfeed rfl (fun code written k hmem => ?_) hbreak hfinal
  rcases hkept with hliteral | hkept
  · exact .inl hliteral
  · exact keptLiterals_of_map_eq (hkept s (ofLines?_eq_some_iff.2 hdivides)) hmem

/-- **Laying out a listing keeps its program.** The answer can be read, and its program is the same
but for the places and for the white space inside literals that hold an equals sign or a comma. It is
the same but for the places alone if lining up leaves the literals as they are. All this holds where
the layout takes the same line for the beginning of the body as the grammar does. -/
theorem layout?_keeps_program {text out : String}
    (h : Program.parse text = .ok p)
    (hout : layout? defaultTab options text = some out)
    (hmain : (listingLines text.toList).findIdx? (isMarkerLine "/MN") =
      (listingLines text.toList).findIdx? (atMarker "/MN")) :
    ∃ p', Program.parse out = .ok p' ∧ p'.view .unspaced = p.view .unspaced ∧
      (LiteralsKept text.toList → p'.view .unplaced = p.view .unplaced) := by
  obtain ⟨chars, hchars, rfl⟩ := Option.map_eq_some_iff.1 hout
  obtain ⟨p', hparse, hview⟩ := exists_parse_layoutChars (v := .unspaced) (fun _ _ => rfl) h hchars
    hmain (.inl fun a b halike => by simpa using halike.literal_eq)
  refine ⟨p', hparse, hview, fun hkept => ?_⟩
  obtain ⟨p'', hparse', hview'⟩ := exists_parse_layoutChars (v := .unplaced) (fun _ _ => rfl) h hchars
    hmain (.inr hkept)
  rw [hparse, Except.ok.injEq] at hparse'
  rw [hparse', hview']

/-- A select with ragged branches, with a comma in a string and an equals sign in a comment, in a text
with breaks of both kinds and empty lines at its end. -/
theorem layout?_keeps_program_ragged :
    let text := "/PROG A\r\n/MN\n1:SELECT R[1]= 'a,b',CALL C ;\n\n2: =R[2:k = 1] , CALL A;\n" ++
      "3: else ,CALL B;\n/POS\n/END \n\n"
    let out := "/PROG A\r\n/MN\r\n   1:  SELECT R[1]='a,b',CALL C ;\r\n\r\n" ++
      "   1:             =R[2:k = 1],CALL A ;\r\n   1:                    ELSE,CALL B ;\r\n" ++
      "/POS\r\n/END \r\n"
    let options : LayoutOptions := { tabSize := 0, trimFinalNewlines := true }
    layout? 2 options text = some out ∧ LiteralsKept text.toList ∧
      (listingLines text.toList).findIdx? (isMarkerLine "/MN") =
        (listingLines text.toList).findIdx? (atMarker "/MN") ∧
      ∃ p p', Program.parse text = .ok p ∧ Program.parse out = .ok p' ∧
        p'.view .unspaced = p.view .unspaced ∧ p'.view .unplaced = p.view .unplaced := by
  intro text out options
  have hout : layout? 2 options text = some out := by decide +kernel
  have hkept : LiteralsKept text.toList := by decide
  have hmain : SameMain (listingLines text.toList) := by decide
  have hok : (Program.parse text).toOption.isSome = true := by decide +kernel
  cases hparse : Program.parse text with
  | ok p =>
    obtain ⟨p', hp', hunspaced, hunplaced⟩ := layout?_keeps_program hparse hout hmain
    exact ⟨hout, hkept, hmain, p, p', rfl, hp', hunspaced, hunplaced hkept⟩
  | error e =>
    rw [hparse] at hok
    cases hok

/-- The strings that the branches of selects compare with. -/
def Program.caseStrings (p : Program) : List String :=
  p.instructions.filterMap fun i =>
    match i.kind with
    | .select _ ⟨.string _ content, _⟩ | .case ⟨.string _ content, _⟩ => some content
    | _ => none

theorem exists_changed_of_caseStrings {t u : String}
    {a : List String} (hout : layout? defaultTab options t = some u)
    (h : ((Program.parse t).toOption.map fun p => (p.view .unplaced).caseStrings) = some a)
    (h' : ((Program.parse u).toOption.map fun p => (p.view .unplaced).caseStrings) ≠ some a) :
    ∃ p out, Program.parse t = .ok p ∧ layout? defaultTab options t = some out ∧
      ∀ p', Program.parse out = .ok p' → p'.view .unplaced ≠ p.view .unplaced := by
  cases hparse : Program.parse t with
  | ok p =>
    refine ⟨p, u, rfl, hout, fun p' hp' heq => h' ?_⟩
    rw [hparse] at h
    rw [hp', ← h]
    simp only [Except.toOption, Option.map_some, heq]
  | error e =>
    rw [hparse] at h
    cases h

/-- **Neither condition can be left out.** A line of the head that begins with a form feed and the
marker of the body ends the head for the layout, and what is left of the head and the true marker turn
into body lines, so that the answer cannot be read. And white space around a comma is lost inside a
string that a select compares with. -/
theorem layout?_changes_program :
    let marked := "/PROG A\n/ATTR\n\x0c/MN was here\nCOMMENT = \"x\";\n/MN\n" ++
      "   1:  PAUSE ;\n/POS\n/END\n"
    let spaced := "/PROG A\n/MN\n   1:  SELECT R[1]='a , b',JMP LBL[1] ;\n/POS\n/END\n"
    ∀ text ∈ [marked, spaced], ∃ p out, Program.parse text = .ok p ∧
      layout? 2 { tabSize := 2 } text = some out ∧
      ∀ p', Program.parse out = .ok p' → p'.view .unplaced ≠ p.view .unplaced := by
  intro marked spaced
  have hmarked : layout? 2 { tabSize := 2 } marked = some ("/PROG A\n/ATTR\n\x0c/MN was here\n" ++
      "   1:  COMMENT = \"x\" ;\n   1:  /MN ;\n   1:  PAUSE ;\n/POS\n/END\n") := by
    decide
  have hspaced : layout? 2 { tabSize := 2 } spaced = some ("/PROG A\n/MN\n" ++
      "   1:  SELECT R[1]='a,b',JMP LBL[1] ;\n/POS\n/END\n") := by
    decide
  refine forall_mem_cons.2 ⟨?_, forall_mem_cons.2 ⟨?_, by simp⟩⟩
  · exact exists_changed_of_caseStrings hmarked (a := []) (by decide +kernel) (by decide +kernel)
  · exact exists_changed_of_caseStrings hspaced (a := ["a , b"]) (by decide +kernel)
      (by decide +kernel)

end RobotSource.Listing
