import RobotSource.Listing.Grammar.Program
import RobotSource.Proofs.Parsing.Line
import RobotSource.Proofs.Parsing.Word
/-!
# Listings line by line

The sections of a listing are blocks of lines. Where one of them has been read, its lines are known
(`headPart_lines`, `positionData_lines`), and they are read in the same way in any other text that
has them, whatever its breaks are and whatever follows.
-/

namespace RobotSource.Listing.Grammar

open Parsing Parsing.Parser Text List

variable {c r : Cursor} {l s t : List Char} {lines : List (List Char)} {marker : String}
variable {w m word : List Char} {u : Unit}

/-! ## Markers -/

/-- A text that a marker is compared with has no breaks if it matches. -/
theorem not_isBreak_of_same (hm : ∀ x ∈ m, isBreak x = false)
    (h : sameCharsIgnoringCase w m) : ∀ x ∈ w, isBreak x = false := by
  intro x hx
  cases hbreak : isBreak x with
  | false => rfl
  | true =>
    have hletter : x.toLower = x ∧ x.isLower = false := by
      simp only [isBreak, Bool.or_eq_true, beq_iff_eq] at hbreak
      rcases hbreak with rfl | rfl <;> decide
    have hmem : x ∈ m.map Char.toLower := by
      rw [← eq_of_beq h, ← hletter.1]
      exact mem_map_of_mem hx
    obtain ⟨y, hy, hyx⟩ := mem_map.1 hmem
    rw [eq_of_toLower_eq hletter.2 hyx] at hy
    rw [hm x hy] at hbreak
    cases hbreak

/-- What follows the break of a line plays no part in whether the line begins with a marker. -/
theorem atMarker_append (hmarker : ∀ x ∈ marker.toList, isBreak x = false) (hs : Breaks s) :
    atMarker marker (l ++ s) = atMarker marker l := by
  obtain ⟨x, t, rfl, hx⟩ : ∃ x t, s = x :: t ∧ isBreak x := by
    cases s with
    | nil => exact absurd hs not_breaks_nil
    | cons x t => exact ⟨x, t, rfl, hs.isBreak_head⟩
  have hspace : isSpaceOrTab x = false := not_isSpaceOrTab_of_isBreak hx
  have hcode : (l ++ x :: t).dropWhile isSpaceOrTab = l.dropWhile isSpaceOrTab ++ x :: t := by
    rw [dropWhile_append]
    split
    · rename_i hnil
      rw [isEmpty_iff.1 hnil, dropWhile_cons_of_neg (by simp [hspace]), nil_append]
    · rfl
  obtain ⟨code, hdrop⟩ : ∃ code, code = l.dropWhile isSpaceOrTab := ⟨_, rfl⟩
  simp only [atMarker, hcode, ← hdrop, ← String.length_toList]
  by_cases hlen : marker.toList.length ≤ code.length
  · rw [take_append_of_le_length hlen]
  · -- the line is too short for the marker, and with its break it is another text
    have hright : sameCharsIgnoringCase (code.take marker.toList.length) marker.toList = false := by
      rw [sameCharsIgnoringCase, beq_eq_false_iff_ne]
      intro heq
      have hlength := congrArg List.length heq
      simp only [length_map, length_take] at hlength
      omega
    have hmem : x ∈ (code ++ x :: t).take marker.toList.length := by
      refine mem_take_iff_getElem.2 ⟨code.length, ?_, by simp⟩
      rw [length_append, length_cons]
      omega
    have hleft : sameCharsIgnoringCase ((code ++ x :: t).take marker.toList.length)
        marker.toList = false := by
      rw [← Bool.not_eq_true]
      intro hsame
      rw [not_isBreak_of_same hmarker hsame x hmem] at hx
      cases hx
    rw [hleft, hright]

theorem atMarker_nil (hmarker : marker.toList ≠ []) : atMarker marker [] = false := by
  have hne : marker.toList.map Char.toLower ≠ [] := by simpa using hmarker
  simpa [atMarker, sameCharsIgnoringCase] using hne.symm

theorem exists_slash_of_same {marker : List Char}
    (h : sameCharsIgnoringCase w ('/' :: marker)) : ∃ w', w = '/' :: w' := by
  cases w with
  | nil => cases h
  | cons x w =>
    rw [sameCharsIgnoringCase, beq_iff_eq, map_cons, map_cons] at h
    have hx : x.toLower = '/' := (List.cons.inj h).1
    exact ⟨w, by rw [eq_of_toLower_eq (by decide) hx]⟩

theorem atMarker_of_same {g rest : List Char} (hmarker : marker.toList = '/' :: m)
    (hg : ∀ x ∈ g, isSpaceOrTab x) (h : sameCharsIgnoringCase w marker.toList) :
    atMarker marker (g ++ w ++ rest) := by
  obtain ⟨w', hw⟩ := exists_slash_of_same (hmarker ▸ h)
  have hcode : (g ++ w ++ rest).dropWhile isSpaceOrTab = w ++ rest := by
    rw [append_assoc, dropWhile_append_of_pos hg, hw, cons_append,
      dropWhile_cons_of_neg (by decide)]
  have hlength : w.length = marker.toList.length := by
    simpa using congrArg List.length (eq_of_beq h)
  rw [atMarker]
  simp only [hcode]
  rw [← String.length_toList, ← hlength, take_left, h]

/-- A marker that begins a text stands in its first line. -/
theorem exists_splitLines_of_atMarker (hmarker : marker.toList = '/' :: m)
    (hbreak : ∀ x ∈ marker.toList, isBreak x = false) (h : atMarker marker t) :
    ∃ first behind, splitLines (unifyBreaks t) = first :: behind ∧ atMarker marker first := by
  obtain ⟨g, code, rfl, hg, hcode⟩ : ∃ g code, t = g ++ code ∧
      (∀ x ∈ g, isSpaceOrTab x) ∧ code = t.dropWhile isSpaceOrTab :=
    ⟨_, _, (takeWhile_append_dropWhile (p := isSpaceOrTab)).symm,
      fun x hx => all_eq_true.1 all_takeWhile x hx, rfl⟩
  have hsame : sameCharsIgnoringCase (code.take marker.length) marker.toList := by
    rw [hcode]
    exact h
  have hfree : ∀ x ∈ g ++ code.take marker.length, isBreak x = false := by
    intro x hx
    rcases mem_append.1 hx with hx | hx
    · exact not_isBreak_of_isSpaceOrTab (hg x hx)
    · exact not_isBreak_of_same hbreak hsame x hx
  rw [← take_append_drop marker.length code, ← append_assoc,
    unifyBreaks_append fun hmem => absurd (hfree _ hmem) (by decide)]
  obtain ⟨behind, hsplit⟩ := exists_splitLines_append (v := unifyBreaks (code.drop marker.length))
    fun hmem => absurd (hfree _ hmem) (by decide)
  exact ⟨_, behind, hsplit, atMarker_of_same hmarker hg hsame⟩

/-! ## Empty lines -/

theorem failsAt_lineBreak {x : Option Char} (h : x.any isBreak = false) : FailsAt x lineBreak := by
  intro c hc
  rw [lineBreak]
  split
  · rename_i hrest
    rw [hrest] at hc
    rw [← hc] at h
    cases h
  · rename_i hrest
    rw [hrest] at hc
    rw [← hc] at h
    cases h
  · exact ⟨_, rfl⟩

theorem emptyLines_lines (h : emptyLines c = .done u r) :
    ∃ lines, Opens r.rest lines c.rest ∧ ∀ l ∈ lines, ∀ x ∈ l, isSpaceOrTab x := by
  obtain ⟨bs, r', hmany, hdone⟩ := bind_eq_done.1 h
  cases hdone
  refine Yields.many (I := fun _ r => ∃ lines, Opens r.rest lines c.rest ∧
    ∀ l ∈ lines, ∀ x ∈ l, isSpaceOrTab x = true) (fun _ => ?_) [] c bs r ⟨[], .nil, by simp⟩ hmany
  rintro d b d' ⟨lines, hopens, hlines⟩ hdone
  obtain ⟨u, d₁, hspaces, hbreak⟩ := seqRight_eq_done.1 hdone
  obtain ⟨g, hd, hg, -⟩ := spaces_eq_done hspaces
  obtain ⟨hb, hd₁⟩ := rest_of_lineBreak hbreak
  have hclosed : ClosedLine g :=
    closedLine_of_forall fun x hx => not_isBreak_of_isSpaceOrTab (hg x hx)
  refine ⟨lines ++ [g], hopens.append ?_, ?_⟩
  · rw [hd, hd₁]
    exact .cons hclosed hb .nil
  · intro l hl
    rcases mem_append.1 hl with hl | hl
    · exact hlines l hl
    · rwa [mem_singleton.1 hl]

theorem reaches_emptyLines (h : Opens s lines c.rest)
    (hlines : ∀ l ∈ lines, ∀ x ∈ l, isSpaceOrTab x)
    (hs : (s.dropWhile isSpaceOrTab).head?.any isBreak = false) : Reaches emptyLines c () s := by
  suffices hmany : ∃ bs, Reaches (many (spaces *> lineBreak)) c bs s by
    obtain ⟨bs, hbs⟩ := hmany
    exact hbs.bind fun r hr => .pure () hr
  generalize hc : c.rest = t at h
  induction h generalizing c with
  | nil =>
    obtain ⟨r, hr, hrest⟩ := reaches_spaces (c := c) (l := s.takeWhile isSpaceOrTab)
      (s := s.dropWhile isSpaceOrTab) (by rw [hc, takeWhile_append_dropWhile])
      (fun x hx => all_eq_true.1 all_takeWhile x hx) (head?_dropWhile_any _ s)
    obtain ⟨e, he⟩ := failsAt_lineBreak hs r (by rw [hrest])
    refine ⟨[], c, ?_, hc⟩
    rw [many, seqRight_apply, hr]
    simp only [he]
  | @cons l b t lines hl hb h ih =>
    obtain ⟨hblank, hlines⟩ := forall_mem_cons.1 hlines
    have hbreak : (b ++ t).head?.any isSpaceOrTab = false := by
      rcases hb with rfl | rfl <;> rfl
    obtain ⟨r, hr, hrest⟩ := reaches_spaces hc hblank hbreak
    obtain ⟨r', hr', hrest'⟩ := reaches_lineBreak hb hrest
    obtain ⟨bs, r'', hmany, hs⟩ := ih hlines hrest'
    have hshort : r'.rest.length < c.rest.length := by
      have hpos := length_pos_of_ne_nil hb.ne_nil
      rw [hrest', hc, length_append, length_append]
      omega
    refine ⟨b :: bs, r'', ?_, hs⟩
    rw [many, seqRight_apply, hr]
    simp only [hr', if_pos hshort, hmany, consTo]

/-! ## Lines up to a marker -/

/-- The lines that are read over before a marker. -/
structure Before (marker : String) (lines : List (List Char)) : Prop where
  breakFree : ∀ l ∈ lines, ∀ x ∈ l, isBreak x = false
  noMarker : ∀ l ∈ lines, atMarker marker l = false

theorem linesUntil_lines (hmarker : ∀ x ∈ marker.toList, isBreak x = false)
    (hne : marker.toList ≠ []) (h : linesUntil marker c = .done lines r) :
    Opens r.rest lines c.rest ∧ Before marker lines ∧ atMarker marker r.rest := by
  refine Yields.nested (A := fun b c => c = b) (B := fun b lines r => Opens r.rest lines b.rest ∧
    Before marker lines ∧ atMarker marker r.rest = true) (fun self hself _ => ?_) c c lines r rfl h
  rintro start lines r rfl hdone
  obtain ⟨_, _, hcursor, hdone⟩ := bind_eq_done.1 hdone
  cases hcursor
  split at hdone
  · cases hdone
  split at hdone
  · rename_i hat
    cases hdone
    exact ⟨.nil, ⟨by simp, by simp⟩, hat⟩
  · rename_i hat
    obtain ⟨line, c₁, hline, b, c₂, hend, lines, c₃, hlines, hdone⟩ := bind₃_eq_done.1 hdone
    cases hdone
    obtain ⟨hopens, hbefore, hat'⟩ := hself c₂ c₂ lines r rfl hlines
    -- the marker stands behind the line, so the line does not end with the text
    have hmore : c₂.rest ≠ [] := by
      intro hnil
      have hsuffix := hopens.suffix
      rw [hnil, suffix_nil] at hsuffix
      rw [hsuffix, atMarker_nil hne] at hat'
      cases hat'
    obtain ⟨hb, hrest⟩ := rest_of_lineEnd_of_ne_nil hend hmore
    have hbreakFree : ∀ x ∈ line, isBreak x = false := by
      cases hline
      intro x hx
      simpa using all_eq_true.1 all_takeWhile x hx
    have hsplit : start.rest = line ++ (b ++ c₂.rest) := by
      rw [← hrest]
      cases hline
      rw [Cursor.rest_drop, drop_length_takeWhile, takeWhile_append_dropWhile]
    refine ⟨?_, ⟨?_, ?_⟩, hat'⟩
    · rw [hsplit]
      exact .cons (closedLine_of_forall hbreakFree) hb hopens
    · exact forall_mem_cons.2 ⟨hbreakFree, hbefore.breakFree⟩
    · refine forall_mem_cons.2 ⟨?_, hbefore.noMarker⟩
      rw [← Bool.not_eq_true, ← atMarker_append hmarker ⟨b, _, hb, rfl⟩, ← hsplit]
      exact hat

theorem reaches_linesUntil (hmarker : ∀ x ∈ marker.toList, isBreak x = false)
    (hne : marker.toList ≠ []) (h : Opens s lines c.rest) (hlines : Before marker lines)
    (hs : atMarker marker s) : Reaches (linesUntil marker) c lines s := by
  generalize hc : c.rest = t at h
  induction h generalizing c with
  | nil =>
    have hend : c.atEnd = false := by
      have hs' : s ≠ [] := by
        rintro rfl
        rw [atMarker_nil hne] at hs
        cases hs
      simpa [Cursor.atEnd, hc] using hs'
    refine ⟨c, ?_, hc⟩
    rw [linesUntil, nested]
    refine bind_eq_done.2 ⟨c, c, rfl, ?_⟩
    rw [if_neg (by simp [hend]), if_pos (by rw [hc, hs])]
    rfl
  | @cons l b t lines hl hb h ih =>
    obtain ⟨hbreakFree, hrestFree⟩ := forall_mem_cons.1 hlines.breakFree
    obtain ⟨hnone, hrestNone⟩ := forall_mem_cons.1 hlines.noMarker
    have hbreak : (b ++ t).head?.any (fun x => !isBreak x) = false := by
      rcases hb with rfl | rfl <;> rfl
    obtain ⟨r, hr, hrest⟩ := reaches_takeWhile hc (fun x hx => by simp [hbreakFree x hx]) hbreak
    obtain ⟨r', hr', hrest'⟩ := reaches_lineEnd hb hrest
    obtain ⟨r'', hlines'', hs''⟩ := ih ⟨hrestFree, hrestNone⟩ hrest'
    have hpos := length_pos_of_ne_nil hb.ne_nil
    have hshort : r'.rest.length < c.rest.length := by
      rw [hrest', hc, length_append, length_append]
      omega
    have hend : c.atEnd = false := by
      have hne : l ++ (b ++ t) ≠ [] := by simp [hb.ne_nil]
      simpa [Cursor.atEnd, hc] using hne
    have hat : atMarker marker c.rest = false := by
      rw [hc, atMarker_append hmarker ⟨b, t, hb, rfl⟩, hnone]
    refine ⟨r'', ?_, hs''⟩
    rw [linesUntil, nested]
    refine bind_eq_done.2 ⟨c, c, rfl, ?_⟩
    rw [if_neg (by simp [hend]), if_neg (by simp [hat])]
    refine bind_of_done hr <| bind_of_done hr' <| bind_of_done ?_ rfl
    exact (if_pos hshort).trans hlines''

/-! ## The head of a listing -/

theorem markerLine_lines [hmarker : Worded marker] (h : markerLine marker c = .done u r) (hr : r.rest ≠ []) :
    ∃ l, Opens r.rest [l] c.rest ∧ (∀ x ∈ l, isBreak x = false) ∧
      ReadAs (markerLine marker) [l] () := by
  obtain ⟨u₁, c₁, h₁, a, c₂, h₂, b, c₃, h₃, h⟩ := bind₃_eq_done.1 h
  cases h
  have hword : Local Breaks (do spaces; let _ ← keyword marker : Parser Unit) :=
    local_spaces.bind fun _ => (local_keyword hmarker.fact.2).bind fun _ => .pure ()
  have hdone : (do spaces; let _ ← keyword marker : Parser Unit) c = .done () c₂ :=
    bind_of_done h₁ <| bind_of_done h₂ rfl
  obtain ⟨l, hopens, hl, hread⟩ := hword.readAs hdone h₃ hr
  refine ⟨l, hopens, hl, ?_⟩
  simpa only [markerLine, bind_assoc, pure_bind] using hread

/-- The first line of a listing. -/
def titleLine : Parser (String × Option String) := do
  let _ ← keyword "/PROG"
  let name ← identifier
  spaces
  let subType ← maybe (do let word ← identifier; spaces; return word)
  let _ ← lineEnd
  return (name, subType)

/-- Everything up to the body: the title, and the attribute that is kept. -/
def headPart : Parser ((String × Option String) × Option String) := do
  emptyLines
  let title ← titleLine
  let attributes ← linesUntil "/MN"
  markerLine "/MN"
  return (title, (attributes.filterMap attributeComment?).getLast?)

/-- A title begins with its word. -/
theorem head_of_titleLine {a : String} (h : keyword "/PROG" c = .done a r) :
    ∃ x t, c.rest = '/' :: x :: t ∧ x.toLower = 'p' := by
  obtain ⟨k, hk, -⟩ := keyword_eq_done h
  obtain ⟨rfl, hsame⟩ := same_of_matchLength? (by decide) hk
  match hc : c.rest with
  | [] => simp [hc, sameCharsIgnoringCase] at hsame
  | [x] => simp [hc, sameCharsIgnoringCase] at hsame
  | x :: y :: t =>
    rw [hc] at hsame
    simp [sameCharsIgnoringCase] at hsame
    obtain rfl : x = '/' := eq_of_toLower_eq (by decide) hsame.1
    exact ⟨y, t, rfl, hsame.2.1⟩

theorem titleLine_lines {title : String × Option String} (h : titleLine c = .done title r)
    (hr : r.rest ≠ []) : ∃ l, Opens r.rest [l] c.rest ∧ l.head? = some '/' ∧
      atMarker "/MN" l = false ∧ ReadAs titleLine [l] title := by
  obtain ⟨a, c₁, h₁, h⟩ := bind_eq_done.1 h
  obtain ⟨x, t, hstart, hx⟩ := head_of_titleLine h₁
  obtain ⟨name, c₂, h₂, u, c₃, h₃, subType, c₄, h₄, b, c₅, h₅, h⟩ := bind₄_eq_done.1 h
  cases h
  let words : Parser (String × Option String) := do
    let _ ← keyword "/PROG"
    let name ← identifier
    spaces
    let subType ← maybe (do let word ← identifier; spaces; return word)
    return (name, subType)
  have hsub : Local Breaks (maybe (do let word ← identifier; spaces; return word)) :=
    ((Local.identifier delimits_breaks).bind fun word => local_spaces.bind fun _ => .pure word).maybe
  have hwords : Local Breaks words :=
    (local_keyword (by decide)).bind fun _ => (Local.identifier delimits_breaks).bind fun _ =>
      local_spaces.bind fun _ => hsub.bind fun _ => .pure _
  have hdone : words c = .done (name, subType) c₄ :=
    bind_of_done h₁ <| bind_of_done h₂ <| bind_of_done h₃ <| bind_of_done h₄ rfl
  have : Reads WithinLine words := by unfold words; infer_instance
  obtain ⟨l, hopens, hl, hread⟩ := hwords.readAs hdone h₅ hr
  -- the two characters that tell the title from the marker stand in the line
  obtain ⟨s, hs, hc⟩ : ∃ s, Breaks s ∧ c.rest = l ++ s := by
    generalize c.rest = text at hopens
    cases hopens with
    | cons _ hb hnil => exact ⟨_, ⟨_, _, hb, rfl⟩, rfl⟩
  refine ⟨l, hopens, ?_, ?_, ?_⟩
  · cases l with
    | nil =>
      rw [hstart, nil_append] at hc
      rw [← hc] at hs
      exact absurd hs.isBreak_head (by decide)
    | cons y l =>
      rw [hstart, cons_append] at hc
      rw [head?_cons, ← (List.cons.inj hc).1]
  · rw [← atMarker_append (by decide) hs, ← hc, hstart, atMarker,
      dropWhile_cons_of_neg (by decide)]
    simp [sameCharsIgnoringCase, hx, show "/MN".length = 3 from rfl]
  · simpa only [titleLine, words, bind_assoc, pure_bind] using hread

/-- **The head of a listing stands in its first lines.** They end with the marker of the body. -/
theorem headPart_lines {head : (String × Option String) × Option String}
    (h : headPart c = .done head r) (hr : r.rest ≠ []) :
    ∃ before main, Opens r.rest (before ++ [main]) c.rest ∧
      (∀ l ∈ before, atMarker "/MN" l = false) ∧ atMarker "/MN" main ∧
      ReadAs headPart (before ++ [main]) head := by
  obtain ⟨u, c₁, h₁, title, c₂, h₂, attributes, c₃, h₃, u', c₄, h₄, h⟩ := bind₄_eq_done.1 h
  cases h
  have hne {c : Cursor} {lines : List (List Char)} {s : List Char} (h : Opens s lines c.rest)
      (hs : s ≠ []) : c.rest ≠ [] := by
    intro hnil
    have hsuffix := h.suffix
    rw [hnil, suffix_nil] at hsuffix
    exact hs hsuffix
  obtain ⟨blank, hblank, hspaces⟩ := emptyLines_lines h₁
  obtain ⟨main, hmain, -, hreadMain⟩ := markerLine_lines h₄ hr
  have hr₃ : c₃.rest ≠ [] := hne hmain hr
  obtain ⟨hlines, hbefore, hat⟩ := linesUntil_lines (by decide) (by decide) h₃
  obtain ⟨l, htitle, hslash, hnot, hreadTitle⟩ := titleLine_lines h₂ (hne hlines hr₃)
  have hmarker {d : Cursor} {s : List Char} (h : Opens s [main] d.rest) :
      atMarker "/MN" d.rest = atMarker "/MN" main := by
    generalize d.rest = text at h
    cases h with
    | cons _ hb hnil => exact atMarker_append (by decide) ⟨_, _, hb, rfl⟩
  have hatMain : atMarker "/MN" main := (hmarker hmain).symm.trans hat
  refine ⟨blank ++ l :: attributes, main, ?_, ?_, hatMain, ?_⟩
  · simpa using hblank.append (htitle.append (hlines.append hmain))
  · intro l' hl'
    rcases mem_append.1 hl' with hl' | hl'
    · have hempty : l'.dropWhile isSpaceOrTab = [] :=
        dropWhile_eq_nil_iff.2 (hspaces l' hl')
      simp [atMarker, hempty, sameCharsIgnoringCase]
    · rcases mem_cons.1 hl' with rfl | hl'
      · exact hnot
      · exact hbefore.noMarker l' hl'
  · intro d s hd
    have hsplit : blank ++ l :: attributes ++ [main] = blank ++ ([l] ++ (attributes ++ [main])) := by
      simp
    rw [hsplit] at hd
    obtain ⟨s₁, hd₁, hd⟩ := hd.exists_of_append
    obtain ⟨s₂, hd₂, hd⟩ := hd.exists_of_append
    obtain ⟨s₃, hd₃, hd₄⟩ := hd.exists_of_append
    have hstart : (s₁.dropWhile isSpaceOrTab).head?.any isBreak = false := by
      cases hd₂ with
      | cons _ hb hnil =>
        obtain ⟨l, rfl⟩ := head?_eq_some_iff.1 hslash
        rw [cons_append, dropWhile_cons_of_neg (by decide)]
        rfl
    refine (reaches_emptyLines hd₁ hspaces hstart).bind fun r₁ hr₁ => ?_
    refine (hreadTitle r₁ s₂ (hr₁ ▸ hd₂)).bind fun r₂ hr₂ => ?_
    have hat₃ : atMarker "/MN" s₃ := by
      have hat := hmarker (d := ⟨s₃, .first⟩) hd₄
      rw [hatMain] at hat
      exact hat
    refine (reaches_linesUntil (by decide) (by decide) (hr₂ ▸ hd₃) hbefore hat₃).bind fun r₃ hr₃ => ?_
    exact (hreadMain r₃ s (hr₃ ▸ hd₄)).bind fun r₄ hr₄ => .pure _ hr₄

/-! ## The positions and the end of a listing -/

theorem positionData_of_not_atMarker (h : atMarker "/POS" c.rest = false) :
    positionData c = .done () c := by
  refine bind_eq_done.2 ⟨c, c, rfl, ?_⟩
  rw [if_neg (by simp [h])]
  rfl

/-- **The positions stand in lines of their own**, which begin with their marker. -/
theorem positionData_lines (hat : atMarker "/POS" c.rest) (h : positionData c = .done u r) :
    ∃ first behind, Opens r.rest (first :: behind) c.rest ∧ atMarker "/POS" first ∧
      ∀ d s, Opens s (first :: behind) d.rest → atMarker "/END" s →
        Reaches positionData d () s := by
  obtain ⟨_, _, hcursor, h⟩ := bind_eq_done.1 h
  cases hcursor
  rw [if_pos hat] at h
  obtain ⟨u₁, c₁, h₁, behind, c₂, h₂, h⟩ := bind₂_eq_done.1 h
  cases h
  obtain ⟨hbehind, hbefore, hend⟩ := linesUntil_lines (by decide) (by decide) h₂
  have hr₁ : c₁.rest ≠ [] := by
    intro hnil
    have hsuffix := hbehind.suffix
    rw [hnil, suffix_nil] at hsuffix
    rw [hsuffix] at hend
    cases hend
  obtain ⟨first, hfirst, -, hread⟩ := markerLine_lines h₁ hr₁
  have hmarker {t s : List Char} {lines : List (List Char)} (h : Opens s (first :: lines) t) :
      atMarker "/POS" t = atMarker "/POS" first := by
    cases h with
    | cons _ hb h => exact atMarker_append (by decide) ⟨_, _, hb, rfl⟩
  have hatFirst : atMarker "/POS" first := (hmarker hfirst).symm.trans hat
  refine ⟨first, behind, hfirst.append hbehind, hatFirst, fun d s hd hs => ?_⟩
  have hatLine : atMarker "/POS" d.rest := (hmarker hd).trans hatFirst
  rw [← singleton_append] at hd
  obtain ⟨s₁, hd₁, hd₂⟩ := hd.exists_of_append
  obtain ⟨r₁, hr₁, hs₁⟩ := hread d s₁ hd₁
  obtain ⟨r₂, hr₂, hs₂⟩ := reaches_linesUntil (by decide) (by decide) (hs₁ ▸ hd₂) hbefore hs
  refine ⟨r₂, bind_eq_done.2 ⟨d, d, rfl, ?_⟩, hs₂⟩
  rw [if_pos hatLine]
  exact bind_of_done hr₁ <| bind_of_done hr₂ rfl

/-- The end of a listing. Yields the place behind its marker. -/
def ending : Parser Position := do
  spaces
  let _ ← keyword "/END"
  let stop ← position
  nothingMore
  return stop

/-- The text ends with the marker of the end, with spaces and tabs before it and white space behind
it. -/
def Ends (word t : List Char) : Prop :=
  ∃ rest, t = word ++ rest ∧ (∀ x ∈ rest, isSpacing x = true) ∧
    ∃ g w, word = g ++ w ∧ (∀ x ∈ g, isSpaceOrTab x = true) ∧
      sameCharsIgnoringCase w "/END".toList = true

theorem ends_of_ending {stop : Position} (h : ending c = .done stop r) :
    ∃ word, Ends word c.rest := by
  obtain ⟨u, c₁, h₁, a, c₂, h₂, _, _, hplace, h⟩ := bind₃_eq_done.1 h
  cases hplace
  obtain ⟨u', c₃, h₃, h⟩ := bind_eq_done.1 h
  obtain ⟨g, hg, hspaces, -⟩ := spaces_eq_done h₁
  obtain ⟨k, hk, -, -, hc₂⟩ := keyword_eq_done h₂
  obtain ⟨rfl, hsame⟩ := same_of_matchLength? (by decide) hk
  -- nothing but white space is left behind the marker
  have hall : ∀ x ∈ c₂.rest, isSpacing x := by
    obtain ⟨taken, c', htaken, _, _, hcursor, hmore⟩ := bind₂_eq_done.1 h₃
    cases hcursor
    split at hmore
    · rename_i hend
      cases htaken
      have hnil : c₂.rest.dropWhile isSpacing = [] := by
        simpa [Cursor.atEnd, drop_length_takeWhile] using hend
      exact dropWhile_eq_nil_iff.1 hnil
    · cases hmore
  refine ⟨g ++ c₁.rest.take "/END".toList.length, c₁.rest.drop "/END".toList.length, ?_, ?_, g, _,
    rfl, hspaces, hsame⟩
  · rw [append_assoc, take_append_drop, hg]
  · intro x hx
    rw [hc₂] at hall
    rw [← takeWhile_append_dropWhile (p := isSpaceOrTab) (l := c₁.rest.drop _)] at hx
    rcases mem_append.1 hx with hx | hx
    · exact isSpacing_of_isSpaceOrTab (all_eq_true.1 all_takeWhile x hx)
    · exact hall x hx

theorem exists_ending (h : Ends word c.rest) : ∃ stop r, ending c = .done stop r := by
  obtain ⟨rest, hc, hrest, g, w, rfl, hg, hsame⟩ := h
  obtain ⟨w', hw⟩ := exists_slash_of_same hsame
  obtain ⟨c₁, h₁, hc₁⟩ := reaches_spaces (s := w ++ rest) (by rw [hc, append_assoc]) hg
    (by rw [hw]; rfl)
  have hstop : rest.head?.any isWord = false := by
    cases rest with
    | nil => rfl
    | cons x rest => simpa using not_isWord_of_isSpacing (hrest x mem_cons_self)
  obtain ⟨a, c₂, h₂, hc₂⟩ := keyword_of_same (by decide) (ascii_of_same (by decide) hsame) hc₁ hsame
    hstop
  have hall : ∀ x ∈ c₂.rest, isSpacing x := fun x hx =>
    hrest x ((dropWhile_suffix _).subset (hc₂ ▸ hx))
  obtain ⟨c₃, h₃, hc₃⟩ := reaches_takeWhile (c := c₂) (s := []) (append_nil _).symm hall rfl
  have hmore : nothingMore c₂ = .done () c₃ := by
    refine bind_of_done h₃ <| bind_eq_done.2 ⟨c₃, c₃, rfl, ?_⟩
    rw [if_pos (by simp [Cursor.atEnd, hc₃])]
    rfl
  exact ⟨_, c₃, bind_of_done h₁ <| bind_of_done h₂ <| bind_eq_done.2 ⟨_, c₂, rfl,
    bind_of_done hmore rfl⟩⟩

/-- Where a text ends so, the marker of the end stands. -/
theorem Ends.atMarker (h : Ends word t) : atMarker "/END" t := by
  obtain ⟨rest, rfl, -, g, w, rfl, hg, hsame⟩ := h
  exact atMarker_of_same rfl hg hsame

theorem Ends.ne_nil (h : Ends word t) : t ≠ [] := by
  rintro rfl
  have hat := h.atMarker
  rw [atMarker_nil (by decide)] at hat
  cases hat

/-! ## Whole listings -/

/-- A listing is its head, its body, its positions and its end. -/
theorem program_eq : program = (do
    let start ← position
    let (title, comment) ← headPart
    let instructions ← bodyLines
    positionData
    let stop ← ending
    return { name := title.1, subType := title.2, comment, instructions, span := ⟨start, stop⟩ }) := by
  simp only [program, headPart, titleLine, ending, bind_assoc, pure_bind]

theorem program_eq_done_iff {p : Program} :
    program c = .done p r ↔ ∃ title comment instructions stop c₁ c₂ c₃,
      headPart c = .done (title, comment) c₁ ∧ bodyLines c₁ = .done instructions c₂ ∧
      positionData c₂ = .done () c₃ ∧ ending c₃ = .done stop r ∧
      p = { name := title.1, subType := title.2, comment, instructions,
            span := ⟨c.position, stop⟩ } := by
  rw [program_eq]
  constructor
  · intro h
    obtain ⟨_, _, hstart, h⟩ := bind_eq_done.1 h
    cases hstart
    obtain ⟨⟨title, comment⟩, c₁, hhead, is, c₂, hbody, _, c₃, hpositions, stop, c₄, hending, h⟩ :=
      bind₄_eq_done.1 h
    cases h
    exact ⟨title, comment, is, stop, c₁, c₂, c₃, hhead, hbody, hpositions, hending, rfl⟩
  · rintro ⟨title, comment, is, stop, c₁, c₂, c₃, hhead, hbody, hpositions, hending, rfl⟩
    exact bind_eq_done.2 ⟨_, _, rfl, bind_of_done hhead <| bind_of_done hbody <|
      bind_of_done hpositions <| bind_of_done hending rfl⟩

end RobotSource.Listing.Grammar
