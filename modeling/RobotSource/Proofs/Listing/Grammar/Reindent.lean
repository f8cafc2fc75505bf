import RobotSource.Proofs.Listing.Grammar.Row
import RobotSource.Proofs.Listing.Grammar.TokenEnds
import RobotSource.Proofs.Listing.Substance
/-!
# Lines in another column

The layout moves the code of a body line to another column and writes another line end behind it. Both
lines are read side by side: as long as there is code, the columns differ by the same number
throughout, and behind the code no place is counted (`View.upToColumn`). Since labels, names and
expressions end with the code at the latest (`settles_instructionKind`), all of them move by this
number of columns (`parse_bodyRow`).
-/

namespace RobotSource

open Text List

/-- Everything as it is, so many columns further to the right. The places behind the column `stop`
count as this column. -/
def View.upToColumn (stop columns : Nat) : View where
  name := id
  literal := id
  position p := ⟨p.line, min p.column stop + columns⟩

namespace Listing

/-- The second instruction is the first one at another place: its labels, the names of programs and
its expressions lie so many columns further to the right. -/
structure Instruction.Shifted (columns : Int) (i j : Instruction) : Prop where
  same : i.view .unplaced = j.view .unplaced
  places : List.Forall₂ (Span.Shifted columns) i.kind.places j.kind.places

namespace Grammar

open Parsing Parsing.Parser

/-! ## Side by side, behind two cursors -/

section
variable {α β : Type} {b b' : Cursor}

theorem keeps_along {S T : Cursor → Cursor → Prop} {V : α → β → Prop} {p : Parser α} {q : Parser β}
    (h : Keeps S T V p q) [∀ n, Orderly (n + 1) false p p] [∀ n, Orderly (n + 1) false q q] :
    Keeps (fun c d => S c d ∧ Along b c ∧ Along b' d) (fun c d => T c d ∧ Along b c ∧ Along b' d)
      V p q := by
  rintro c d ⟨hcd, hc, hd⟩
  exact (h c d hcd).imp_done fun _ _ _ _ hread hread' hvalue hrest =>
    ⟨hvalue, hrest, hc.trans (along_of_done hread), hd.trans (along_of_done hread')⟩

/-- Texts that are read side by side stay so behind the cursors at which it began, in any views that
agree on the places there. -/
theorem Abreast.behind {stop : Char → Bool} {P : List Char → Prop} {R : Cursor → Cursor → Prop}
    {v v' w w' : View} (hR : Abreast stop P R v v') (hname : w.name = w'.name)
    (hliteral : w.literal = w'.literal) (hposition : ∀ c d, R c d → Along b c → Along b' d →
      w.position c.position = w'.position d.position) :
    Abreast stop P (fun c d => R c d ∧ Along b c ∧ Along b' d) w w' where
  borders := hR.borders
  moves c d h := by
    obtain ⟨u, hcommon, hwithin⟩ := hR.moves c d h.1
    refine ⟨u, hcommon, fun c' d' hmoved => ⟨hwithin c' d' hmoved, ?_⟩⟩
    obtain ⟨k, -, rfl, rfl⟩ := hmoved
    exact ⟨h.2.1.trans (.of_drop fun _ _ => trivial), h.2.2.trans (.of_drop fun _ _ => trivial)⟩
  matching word c d hword h := by
    cases hR.matching word c d hword h.1 with
    | none left right => exact .none left right
    | some k left right runsOn_eq written behind =>
      refine .some k left right runsOn_eq written ⟨behind, ?_⟩
      exact ⟨h.2.1.trans (.of_drop fun _ _ => trivial), h.2.2.trans (.of_drop fun _ _ => trivial)⟩
  position c d h := hposition c d h.1 h.2.1 h.2.2
  spaces := keeps_along hR.spaces
  text := keeps_along hR.text
  name := hname
  literal := hliteral

end

/-! ## Columns -/

variable {code tail post g line : List Char} {c c' d e : Cursor} {k : InstructionKind}

/-- How much of the code has been read, where so much of it is left. -/
theorem min_add_length {u rest gap : List Char}
    (hcode : ∀ x, code.getLast? = some x → isBlank x = false)
    (hrest : ∀ x, rest.getLast? = some x → isBlank x = false) (htail : ∀ x ∈ tail, isBlank x)
    (hgap : ∀ x ∈ gap, isBlank x) (h : code ++ tail = u ++ (rest ++ gap)) :
    min u.length code.length + rest.length = code.length := by
  have htrim : code = trimEnd (u ++ rest) := by
    rw [← trimEnd_append_of_all hgap, append_assoc, ← h, trimEnd_append_of_all htail,
      trimEnd_of_getLast hcode]
  by_cases hnil : rest = []
  · rw [hnil, append_nil] at htrim
    have hle : code.length ≤ u.length := htrim ▸ dropEndWhile_isPrefix.length_le
    rw [hnil, Nat.min_eq_right hle, length_nil, Nat.add_zero]
  · rw [trimEnd_of_getLast] at htrim
    · rw [htrim, length_append, Nat.min_eq_left (Nat.le_add_right _ _)]
    · rwa [getLast?_append_of_ne_nil _ hnil]

/-- The column of a cursor in the line, as far as the code goes. -/
theorem position_behind {u rest gap s : List Char} (stop : Nat)
    (hcode : ∀ x, code.getLast? = some x → isBlank x = false)
    (hrest : ∀ x, rest.getLast? = some x → isBlank x = false)
    (htail : ∀ x ∈ tail, isBlank x ∧ x ≠ '\n') (hgap : ∀ x ∈ gap, isBlank x)
    (hline : '\n' ∉ code) (hc : c.rest = code ++ (tail ++ s)) (hu : Passes u c e)
    (he : e.rest = rest ++ (gap ++ s)) :
    ∃ k, k + rest.length = code.length ∧
      (View.upToColumn (c.position.column + code.length) stop).position e.position =
        ⟨c.position.line, c.position.column + k + stop⟩ := by
  have hsplit : code ++ tail = u ++ (rest ++ gap) := by
    have hall := hu.rest
    rw [hc, he, ← append_assoc, ← append_assoc rest, ← append_assoc u] at hall
    exact append_cancel_right hall
  have hfree : '\n' ∉ u := by
    intro hmem
    have hmem : '\n' ∈ code ++ tail := hsplit ▸ mem_append_left _ hmem
    exact (mem_append.1 hmem).elim hline fun hmem => (htail _ hmem).2 rfl
  refine ⟨min u.length code.length,
    min_add_length hcode hrest (fun x hx => (htail x hx).1) hgap hsplit, ?_⟩
  rw [hu.position, Position.afterAll_of_notMem hfree]
  simp only [View.upToColumn, Nat.add_min_add_left]

/-- What has been read up to a character that is not white space is code. -/
theorem isPrefix_of_passes {u : List Char} {x : Char} (htail : ∀ y ∈ tail, isBlank y)
    (hc : c.rest = code ++ (tail ++ ';' :: g)) (hc' : c'.rest = post ++ ';' :: g)
    (hu : Passes (u ++ [x]) c e) (hx : isBlank x = false) (he : Along e c') : u ++ [x] <+: code := by
  obtain ⟨w, hw, -⟩ := he
  have hsplit : (u ++ [x]) ++ (w ++ post) = code ++ tail := by
    have hall := hu.rest
    rw [hw.rest, hc, hc', ← append_assoc, ← append_assoc w, ← append_assoc (u ++ [x])]
      at hall
    exact (append_cancel_right hall).symm
  rcases append_eq_append_iff.1 hsplit with ⟨z, hz, -⟩ | ⟨z, hz, hz'⟩
  · exact ⟨z, hz.symm⟩
  · cases hlast : z.getLast? with
    | none =>
      rw [getLast?_eq_none_iff.1 hlast, append_nil] at hz
      exact hz ▸ prefix_rfl
    | some y =>
      have hy : y = x := by
        have heq := congrArg List.getLast? hz
        rw [getLast?_concat, getLast?_append, hlast, Option.some_or] at heq
        exact (Option.some.inj heq).symm
      have hmem : y ∈ tail := hz' ▸ mem_append_left _ (mem_of_getLast? hlast)
      rw [hy] at hmem
      exact absurd (htail x hmem) (by simp [hx])

/-- Spans that end with a token end with the code at the latest. -/
theorem Settled.column_le {ss : List Span} {s : Span} (h : Settled c ss c') (hs : s ∈ ss)
    (htail : ∀ y ∈ tail, isBlank y) (hline : '\n' ∉ code)
    (hc : c.rest = code ++ (tail ++ ';' :: g)) (hc' : c'.rest = post ++ ';' :: g) :
    s.start.column ≤ c.position.column + code.length ∧
      s.stop.column ≤ c.position.column + code.length := by
  have hcolumn {u : List Char} {e : Cursor} (hu : Passes u c e) (hcode : u <+: code) :
      e.position.column ≤ c.position.column + code.length := by
    rw [hu.position, Position.afterAll_of_notMem fun hmem => hline (hcode.subset hmem)]
    exact Nat.add_le_add_left hcode.length_le _
  obtain ⟨d, e, ⟨w, hw, -⟩, ⟨u, x, hu, hx⟩, he, hstart⟩ := h.starts s hs
  obtain ⟨e', ⟨u', x', hu', hx'⟩, he', hstop⟩ := h.stops s hs
  rw [hstart, hstop]
  refine ⟨hcolumn hw (.trans ⟨u ++ [x], rfl⟩ ?_),
    hcolumn hu' (isPrefix_of_passes htail hc hc' hu' hx' he')⟩
  have hwhole : Passes ((w ++ u) ++ [x]) c e := by
    rw [append_assoc]
    exact hw.trans hu
  rw [← append_assoc]
  exact isPrefix_of_passes htail hc hc' hwhole hx he

/-! ## Code in another column -/

/-- **Code in another column and in front of another line end** is read as before, up to the column
at which it ends. -/
theorem instructionKind_shifted (hcode : Trimmed code) (hne : code ≠ []) (hline : '\n' ∉ code)
    (hc : c.rest = code ++ (tail ++ ';' :: g)) (hd : d.rest = code ++ [' ', ';'])
    (hrow : c.position.line = d.position.line)
    (htail : ∀ y ∈ tail, isBlank y ∧ y ≠ '\n') (hg : ∀ y ∈ g, isSpaceOrTab y)
    (hpost : ∀ y ∈ post, isSpaceOrTab y)
    (h : Reaches instructionKind c k (post ++ ';' :: g)) :
    ReadsKind d fun k' =>
      k.view (.upToColumn (c.position.column + code.length) d.position.column) =
        k'.view (.upToColumn (d.position.column + code.length) c.position.column) := by
  have habreast := abreast_inLine (v := .unplaced) (closing_of_spaces hg)
    (closing_of_spaces (g := []) (by simp)) fun _ _ => rfl
  have hbehind : Abreast isLineEnd LineRest
      (fun e e' => InLine (';' :: g) [';'] e e' ∧ Along c e ∧ Along d e')
      (.upToColumn (c.position.column + code.length) d.position.column)
      (.upToColumn (d.position.column + code.length) c.position.column) := by
    refine habreast.behind rfl rfl ?_
    -- as much code has been read on both sides
    rintro e e' ⟨rest, gap, gap', he, he', hgap, hgap', hlast⟩ ⟨u, hu, -⟩ ⟨u', hu', -⟩
    obtain ⟨n, hn, hposition⟩ := position_behind d.position.column hcode.last hlast htail
      (fun x hx => (hgap x hx).1) hline hc hu he
    have hd : d.rest = code ++ ([' '] ++ [';']) := hd
    obtain ⟨n', hn', hposition'⟩ := position_behind c.position.column hcode.last hlast (by decide)
      (fun x hx => isBlank_of_isSpaceOrTab (hgap' x hx)) hline hd hu' he'
    obtain rfl : n = n' := by omega
    rw [hposition, hposition', hrow, Position.mk.injEq]
    exact ⟨rfl, by omega⟩
  exact instructionKind_of_wording (fun _ _ h => h.1) hbehind.wording
    ⟨⟨code, tail, [' '], hc, hd, htail, by decide, hcode.last⟩, refl_of _ c, refl_of _ d⟩ hne hc hd
    hpost h

theorem forall₂_of_map_eq {α β γ : Type} {f : α → γ} {f' : β → γ} {as : List α} {bs : List β}
    (h : as.map f = bs.map f') : List.Forall₂ (fun a b => f a = f' b) as bs := by
  rwa [← List.forall₂_eq_eq_eq, List.forall₂_map_left_iff, List.forall₂_map_right_iff] at h

/-- Spans that are the same up to the end of the code, and do not go beyond it, differ by so many
columns. -/
theorem shifted_of_upToColumn {a b n : Nat} {ss ts : List Span}
    (h : ss.map (View.upToColumn (a + n) b).span = ts.map (View.upToColumn (b + n) a).span)
    (hss : ∀ s ∈ ss, s.start.column ≤ a + n ∧ s.stop.column ≤ a + n)
    (hts : ∀ t ∈ ts, t.start.column ≤ b + n ∧ t.stop.column ≤ b + n) :
    List.Forall₂ (Span.Shifted (b - a)) ss ts := by
  have hplace {p q : Position} (hp : p.column ≤ a + n) (hq : q.column ≤ b + n)
      (hpq : (View.upToColumn (a + n) b).position p = (View.upToColumn (b + n) a).position q) :
      Position.Shifted (b - a) p q := by
    simp only [View.upToColumn, Position.mk.injEq, Nat.min_eq_left hp, Nat.min_eq_left hq] at hpq
    exact ⟨hpq.1.symm, by omega⟩
  obtain ⟨hlength, hpairs⟩ := List.forall₂_iff_zip.1 (forall₂_of_map_eq h)
  refine List.forall₂_iff_zip.2 ⟨hlength, fun {s t} hmem => ?_⟩
  obtain ⟨hs, ht⟩ := of_mem_zip hmem
  obtain ⟨hstart, hstop⟩ := Span.mk.inj (hpairs hmem)
  exact ⟨hplace (hss s hs).1 (hts t ht).1 hstart, hplace (hss s hs).2 (hts t ht).2 hstop⟩

/-- Instructions that are the same up to the end of the code are the same but for their places. -/
theorem view_unplaced_of_upToColumn {k' : InstructionKind} {stop stop' columns columns' : Nat}
    (h : k.view (.upToColumn stop columns) = k'.view (.upToColumn stop' columns')) :
    k.view .unplaced = k'.view .unplaced := by
  have hview := congrArg (InstructionKind.view .unplaced) h
  rwa [InstructionKind.view_view, InstructionKind.view_view] at hview

/-- The second is what the first is at places that lie some number of columns further to the right. -/
def ShiftedKind (k k' : InstructionKind) : Prop :=
  ∃ columns, k.view .unplaced = k'.view .unplaced ∧
    List.Forall₂ (Span.Shifted columns) k.places k'.places

/-- The code of a line, read in another row. -/
theorem exists_shifted_instructionKind (hcode : Trimmed code) (hne : code ≠ []) (hline : '\n' ∉ code)
    (hc : c.rest = code ++ (tail ++ ';' :: g)) (hd : d.rest = code ++ [' ', ';'])
    (hrow : c.position.line = d.position.line)
    (htail : ∀ y ∈ tail, isBlank y ∧ y ≠ '\n') (hg : ∀ y ∈ g, isSpaceOrTab y)
    (hpost : ∀ y ∈ post, isSpaceOrTab y) (hkind : instructionKind c = .done k c')
    (hc' : c'.rest = post ++ ';' :: g) :
    ReadsKind d (ShiftedKind k) := by
  obtain ⟨k', gap, ⟨d', hkind', hd'⟩, hgap, hview⟩ :=
    instructionKind_shifted hcode hne hline hc hd hrow htail hg hpost ⟨c', hkind, hc'⟩
  refine ⟨k', gap, ⟨d', hkind', hd'⟩, hgap, d.position.column - c.position.column,
    view_unplaced_of_upToColumn hview, ?_⟩
  have hplaces := congrArg InstructionKind.places hview
  rw [InstructionKind.places_view, InstructionKind.places_view] at hplaces
  have hends := settles_instructionKind.alone hkind
  have hends' := settles_instructionKind.alone hkind'
  have hd : d.rest = code ++ ([' '] ++ [';']) := hd
  exact shifted_of_upToColumn hplaces
    (fun s hs => hends.column_le hs (fun y hy => (htail y hy).1) hline hc hc')
    fun s hs => hends'.column_le hs (by decide) hline hd hd'

/-- **A line in another column is read as its instruction**, at places that are as many columns
away as the code is. -/
theorem parse_bodyRow {j : Instruction} (n : Nat) (hline : '\n' ∉ line)
    (hof : BodyLine.ofLine line = .code code) (h : Instruction.parse (String.ofList line) = .ok j) :
    ∃ columns j', Instruction.parse (String.ofList (bodyRow n code)) = .ok j' ∧
      j.Shifted columns j' := by
  obtain ⟨code', tail, post, g, c, c', hof', hc, hkind, hc', htail, hg, hpost, hhead, hbefore⟩ :=
    ofLine_of_parse hline h
  obtain rfl : code' = code := BodyLine.code.inj (hof'.symm.trans hof)
  have htext : (Cursor.ofText (String.ofList (bodyRow n code'))).rest =
      [' ', ' ', ' ', '1', ':'] ++ (blanksOf n ++ (code' ++ [' ', ';'])) := by
    rw [Cursor.ofText, String.toList_ofList]
    simp [bodyRow]
  obtain ⟨j', ⟨r, hdone, -⟩, columns, hsame, hplaces⟩ :
      ∃ j', Reaches instruction (.ofText (String.ofList (bodyRow n code'))) j' [] ∧
        ShiftedKind j.kind j'.kind := by
    by_cases hne : code' = []
    · subst hne
      have hgap : ∀ y ∈ blanksOf n ++ [' '], isSpaceOrTab y :=
        forall_mem_append.2 ⟨isSpaceOrTab_of_mem_blanksOf, by decide⟩
      refine reaches_instruction (T := [';']) hgap rfl (by rw [htext]; simp) fun d hd _ => ?_
      refine ⟨.blank, [], ⟨d, instructionKind_of_semicolon (by rw [hd]; rfl), hd⟩, by simp, 0, ?_⟩
      rw [kind_eq_blank hc htail hhead hkind]
      exact ⟨rfl, .nil⟩
    · have htrimmed : Trimmed code' := trimmed_of_ofLine hof
      refine reaches_instruction isSpaceOrTab_of_mem_blanksOf (head?_of_lined htrimmed hne .same _)
        htext fun d hd hrow => ?_
      exact exists_shifted_instructionKind htrimmed hne
        (fun hmem => hline (mem_of_ofLine hof hmem)) hc hd (hbefore.row.trans hrow.row.symm) htail hg
        hpost hkind hc'
  refine ⟨columns, j', run_eq_ok.2 ⟨r, hdone⟩, ?_, hplaces⟩
  rw [Instruction.view, Instruction.view, hsame]
  rfl

end Grammar

/-! ## Lines of a body -/

variable {lines : List (List Char)} {line : List Char} {i : Nat} {j : Instruction}

/-- Outside the select blocks the code of a line is written as it is. -/
theorem getElem?_alignCodes {codes : List (List Char)} {code : List Char}
    (hcode : codes[i]? = some code) (hi : ¬ InSelect codes i) :
    (alignCodes codes)[i]? = some code := by
  obtain ⟨block, hwritten, hiff⟩ := exists_alignLine hcode
  cases block with
  | none => exact hwritten
  | some b => exact absurd (hiff.1 rfl) hi

/-- **Re-indenting a line does not change its instruction.** Where a line of a body holds an
instruction and stands outside the select blocks, the row that is written for it holds the same
instruction, for any tab size and from any depth on. Its labels, the names of programs and its
expressions are all moved by one number of columns. -/
theorem parse_layoutRows (tabSize depth : Nat) (hline : lines[i]? = some line) (hbreak : '\n' ∉ line)
    (hparse : Instruction.parse (String.ofList line) = .ok j)
    (hselect : ¬ InSelect (lines.map fun l => (BodyLine.ofLine l).text) i) :
    let body := lines.map BodyLine.ofLine
    ∃ row columns j', (layoutRows tabSize depth (body.zip (alignCodes (body.map (·.text)))))[i]? =
      some row ∧ Instruction.parse (String.ofList row) = .ok j' ∧ j.Shifted columns j' := by
  intro body
  obtain ⟨code, -, -, -, -, -, hof, -⟩ := Grammar.ofLine_of_parse hbreak hparse
  have htexts : body.map (·.text) = lines.map fun l => (BodyLine.ofLine l).text := map_map ..
  have hbody : body[i]? = some (.code code) := by
    rw [getElem?_map, hline, Option.map_some, hof]
  have hcode : (body.map (·.text))[i]? = some code := by
    rw [getElem?_map, hbody, Option.map_some, BodyLine.text]
  have hpair : (body.zip (alignCodes (body.map (·.text))))[i]? = some (.code code, code) :=
    getElem?_zip_eq_some.2 ⟨hbody, getElem?_alignCodes hcode (htexts ▸ hselect)⟩
  obtain ⟨n, hrow⟩ := getElem?_layoutRows tabSize depth hpair
  obtain ⟨columns, j', hparse', hshifted⟩ := Grammar.parse_bodyRow n hbreak hof hparse
  exact ⟨_, columns, j', hrow, hparse', hshifted⟩

/-- A call in a loop, with a semicolon in a string, white space in front of its own semicolon, and
eleven places. -/
theorem parse_layoutRows_call :
    let text := " 12:  IF -(R[1:n]+ .5)<'a;b' ,CALL  SUB (R[2]) \t; "
    let lines := ["1:FOR R[1]=1 TO 3 ;".toList, text.toList]
    let body := lines.map BodyLine.ofLine
    ∃ j row columns j', Instruction.parse text = .ok j ∧ j.kind.places.length = 11 ∧
      (layoutRows 4 0 (body.zip (alignCodes (body.map (·.text)))))[1]? = some row ∧
      Instruction.parse (String.ofList row) = .ok j' ∧ j.Shifted columns j' := by
  intro text lines body
  have hplaces : ∃ j, Instruction.parse text = .ok j ∧ j.kind.places.length = 11 := by
    have hmap : (Instruction.parse text).map (fun j => j.kind.places.length) = .ok 11 := by
      decide +kernel
    cases hparse : Instruction.parse text with
    | ok j =>
      rw [hparse] at hmap
      exact ⟨j, rfl, Except.ok.inj hmap⟩
    | error e =>
      rw [hparse] at hmap
      cases hmap
  obtain ⟨j, hparse, hplaces⟩ := hplaces
  have hselect : ¬ InSelect (lines.map fun l => (BodyLine.ofLine l).text) 1 := by
    have hfirst : isSelect (BodyLine.ofLine "1:FOR R[1]=1 TO 3 ;".toList).text = false := by
      decide +kernel
    have hsecond : isSelect (BodyLine.ofLine text.toList).text = false := by decide +kernel
    simp only [lines, map_cons, map_nil, inSelect_succ, inSelect_zero, hfirst, hsecond,
      Bool.false_eq_true, false_and, or_self, not_false_eq_true]
  obtain ⟨row, columns, j', hrow, hparse', hshifted⟩ := parse_layoutRows 4 0
    (show lines[1]? = some text.toList from rfl) (by decide +kernel)
    (by rwa [String.ofList_toList]) hselect
  exact ⟨j, row, columns, j', hparse, hplaces, hrow, hparse', hshifted⟩

end Listing

end RobotSource
