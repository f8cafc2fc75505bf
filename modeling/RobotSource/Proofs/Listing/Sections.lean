import Mathlib.Data.List.Infix
import RobotSource.Listing.Layout
import RobotSource.Proofs.Text.Lines
import RobotSource.Proofs.Text.Trimming
/-!
# Sections and lines of a listing

Where the sections of a listing lie is said by their lines alone (`Sections.Divides`,
`ofLines?_eq_some_iff`): the head ends with the first `/MN` line, the tail begins with the first
`/POS` line, and the body is what stands between them.

Lines that are written with one kind of break are read back as the same lines, with the same kind of
break, if the writing leaves no doubt about their ends (`Writable.read`). A line that ends with a
carriage return is such a doubt, where the break is a bare line feed.
-/

namespace RobotSource.Listing

open Text List

variable {l t : List Char} {lines init : List (List Char)} {last : List Char}

/-! ## Sections -/

/-- The lines of a listing with these sections. -/
def Sections.allLines (s : Sections) : List (List Char) := s.head ++ s.body ++ s.tail

/-- The sections divide the lines of a listing at the first line of each marker. -/
structure Sections.Divides (s : Sections) (lines : List (List Char)) : Prop where
  lines_eq : lines = s.allLines
  main : ∃ before marker, s.head = before ++ [marker] ∧ isMarkerLine "/MN" marker = true ∧
    ∀ l ∈ before, isMarkerLine "/MN" l = false
  positions : ∃ marker behind, s.tail = marker :: behind ∧ isMarkerLine "/POS" marker = true
  noPositions : ∀ l ∈ s.head ++ s.body, isMarkerLine "/POS" l = false

theorem Sections.Divides.tail_ne_nil {s : Sections} (h : s.Divides lines) : s.tail ≠ [] := by
  obtain ⟨q, behind, htail, -⟩ := h.positions
  simp [htail]

/-- No line is a marker of both kinds. -/
theorem isMarkerLine_positions_of_main (h : isMarkerLine "/MN" l) :
    isMarkerLine "/POS" l = false := by
  rw [isMarkerLine, isPrefixOf_iff_prefix] at h
  rw [isMarkerLine, ← Bool.not_eq_true, isPrefixOf_iff_prefix]
  obtain ⟨a, ha⟩ := h
  rintro ⟨b, hb⟩
  rw [← ha] at hb
  simp at hb

/-- A marker line holds more than white space. -/
theorem allBlank_of_isMarkerLine {marker : String} (hne : marker.toList ≠ [])
    (h : isMarkerLine marker l) : allBlank l = false := by
  rw [← Bool.not_eq_true, allBlank, all_eq_true]
  intro hall
  have hnil : trimStart l = [] := by simpa [trimStart] using hall
  rw [isMarkerLine, hnil, flatMap_nil, isPrefixOf_iff_prefix] at h
  exact hne (prefix_nil.1 h)

theorem findIdx?_eq_some_iff_split {p : List Char → Bool} {i : Nat} :
    lines.findIdx? p = some i ↔
      ∃ a x b, lines = a ++ x :: b ∧ a.length = i ∧ p x ∧ ∀ y ∈ a, p y = false := by
  constructor
  · intro h
    obtain ⟨hi, hp, hbefore⟩ := findIdx?_eq_some_iff_getElem.1 h
    refine ⟨lines.take i, lines[i], lines.drop (i + 1), by simp, by simp [hi.le], hp, ?_⟩
    intro y hy
    obtain ⟨j, hj, rfl⟩ := mem_take_iff_getElem.1 hy
    simpa using hbefore j (by omega)
  · rintro ⟨a, x, b, rfl, rfl, hx, ha⟩
    simp [findIdx?_append, findIdx?_eq_none_iff.2 ha, findIdx?_cons, hx]

/-- Sections put together are divided in the same way. -/
theorem ofLines?_append {a body d : List (List Char)} {m q : List Char}
    (hm : isMarkerLine "/MN" m) (ha : ∀ l ∈ a, isMarkerLine "/MN" l = false)
    (hq : isMarkerLine "/POS" q)
    (hnone : ∀ l ∈ a ++ [m] ++ body, isMarkerLine "/POS" l = false) :
    Sections.ofLines? (a ++ [m] ++ body ++ q :: d) = some ⟨a ++ [m], body, q :: d⟩ := by
  have hmain : (a ++ [m] ++ body ++ q :: d).findIdx? (isMarkerLine "/MN") = some a.length :=
    findIdx?_eq_some_iff_split.2 ⟨a, m, body ++ q :: d, by simp, rfl, hm, ha⟩
  have hpos : (a ++ [m] ++ body ++ q :: d).findIdx? (isMarkerLine "/POS") =
      some (a ++ [m] ++ body).length :=
    findIdx?_eq_some_iff_split.2 ⟨a ++ [m] ++ body, q, d, rfl, rfl, hq, hnone⟩
  have hle : ¬ (a ++ [m] ++ body).length < a.length := by simp
  have hlen : a.length + 1 = (a ++ [m]).length := by simp
  simp only [Sections.ofLines?, hmain, hpos, Option.bind_eq_bind, Option.bind_some]
  rw [if_neg hle, take_left, drop_left, hlen, drop_left,
    append_assoc (a ++ [m]), take_left]
  rfl

/-- **What the sections of a listing are.** -/
theorem ofLines?_eq_some_iff {s : Sections} :
    Sections.ofLines? lines = some s ↔ s.Divides lines := by
  constructor
  · intro h
    have hfound := h
    simp only [Sections.ofLines?, Option.bind_eq_bind, Option.bind_eq_some_iff] at hfound
    obtain ⟨i, hmain, j, hpos, hfound⟩ := hfound
    have hle : ¬ j < i := by
      intro hlt
      rw [if_pos hlt] at hfound
      cases hfound
    obtain ⟨a, m, b, rfl, rfl, hm, ha⟩ := findIdx?_eq_some_iff_split.1 hmain
    obtain ⟨c, q, d, heq, rfl, hq, hc⟩ := findIdx?_eq_some_iff_split.1 hpos
    have hne : m ≠ q := by
      rintro rfl
      rw [isMarkerLine_positions_of_main hm] at hq
      cases hq
    -- the two markers stand on different lines, so the second lies behind the first
    obtain ⟨body, rfl, rfl⟩ : ∃ body, c = a ++ m :: body ∧ b = body ++ q :: d := by
      rcases append_eq_append_iff.1 heq with ⟨u, hu, hrest⟩ | ⟨u, hu, hrest⟩
      · cases u with
        | nil => exact absurd (List.cons.inj hrest).1 hne
        | cons x body =>
          obtain ⟨rfl, rfl⟩ := List.cons.inj hrest
          exact ⟨body, hu, rfl⟩
      · have hnil : u = [] := by
          rw [← length_eq_zero_iff]
          simp only [hu, length_append] at hle
          omega
        subst hnil
        exact absurd (List.cons.inj hrest).1.symm hne
    have hlines : a ++ m :: (body ++ q :: d) = a ++ [m] ++ body ++ q :: d := by simp
    have hnone : ∀ l ∈ a ++ [m] ++ body, isMarkerLine "/POS" l = false := by simpa using hc
    rw [hlines, ofLines?_append hm ha hq hnone, Option.some.injEq] at h
    subst h
    exact ⟨hlines, ⟨a, m, rfl, hm, ha⟩, ⟨q, d, rfl, hq⟩, hnone⟩
  · rintro ⟨rfl, ⟨a, m, hhead, hm, ha⟩, ⟨q, d, htail, hq⟩, hnone⟩
    obtain ⟨head, body, tail⟩ := s
    subst hhead htail
    exact ofLines?_append hm ha hq hnone

/-! ## Paired breaks -/

theorem hasPairedBreak_of_notMem (h : '\n' ∉ l) : hasPairedBreak l = false := by
  induction l with
  | nil => rfl
  | cons c l ih =>
    have hl : '\n' ∉ l := not_mem_of_not_mem_cons h
    have hhead : l.head? ≠ some '\n' := fun hh => hl (mem_of_mem_head? hh)
    simp [hasPairedBreak, ih hl, hhead]

theorem hasPairedBreak_append_newline (h : '\n' ∉ l) :
    hasPairedBreak (l ++ '\n' :: t) = (l.getLast? == some '\r' || hasPairedBreak t) := by
  induction l with
  | nil => rfl
  | cons c l ih =>
    have hl : '\n' ∉ l := not_mem_of_not_mem_cons h
    rw [cons_append, hasPairedBreak, ih hl]
    cases l with
    | nil => simp
    | cons d l =>
      have hd : d ≠ '\n' := fun heq => hl (heq ▸ mem_cons_self)
      simp [hd]

/-- Breaks are paired where a line ends with a carriage return. -/
theorem hasPairedBreak_lines (hinit : ∀ l ∈ init, '\n' ∉ l) (hlast : '\n' ∉ last) :
    hasPairedBreak (init.flatMap (· ++ ['\n']) ++ last) =
      init.any fun l => l.getLast? == some '\r' := by
  induction init with
  | nil => exact hasPairedBreak_of_notMem hlast
  | cons l init ih =>
    obtain ⟨hl, hinit⟩ := forall_mem_cons.1 hinit
    simp only [flatMap_cons, append_assoc, cons_append, nil_append,
      any_cons]
    rw [hasPairedBreak_append_newline hl, ih hinit]

theorem unifyBreaks_of_not_hasPairedBreak {text : List Char} (h : hasPairedBreak text = false) :
    unifyBreaks text = text := by
  induction text with
  | nil => rfl
  | cons c cs ih =>
    simp only [hasPairedBreak, Bool.or_eq_false_iff, Bool.and_eq_false_imp, beq_iff_eq,
      beq_eq_false_iff_ne] at h
    rw [unifyBreaks_cons h.1, ih h.2]

/-! ## Writing lines and reading them -/

/-- Lines that can be told apart again when they are written with the given break, with or without
one at the end. -/
structure Writable (newline : List Char) (lines : List (List Char)) (final : Prop) : Prop where
  feedFree : ∀ l ∈ lines, '\n' ∉ l
  many : 2 ≤ lines.length
  lastNonempty : ¬ final → lines.getLast? ≠ some []
  ends : newline = ['\r', '\n'] ∨ newline = ['\n'] ∧
    (∀ l ∈ lines.dropLast, l.getLast? ≠ some '\r') ∧
    (final → ∀ l, lines.getLast? = some l → l.getLast? ≠ some '\r')

/-- The lines of a text whose first lines are closed by the given break. -/
theorem read_lines {newline : List Char} (hinit : ∀ l ∈ init, '\n' ∉ l) (hlast : '\n' ∉ last)
    (hne : init ≠ []) (hnewline : newline = ['\r', '\n'] ∨
      newline = ['\n'] ∧ ∀ l ∈ init, l.getLast? ≠ some '\r') :
    splitLines (unifyBreaks (init.flatMap (· ++ newline) ++ last)) = init ++ [last] ∧
      lineBreakOf (init.flatMap (· ++ newline) ++ last) = newline := by
  rcases hnewline with rfl | ⟨rfl, hends⟩
  · refine ⟨by rw [unifyBreaks_lines hinit hlast, splitLines_lines hinit hlast], ?_⟩
    obtain ⟨l, rest, rfl⟩ := exists_cons_of_ne_nil hne
    have hpaired : hasPairedBreak ((l :: rest).flatMap (· ++ ['\r', '\n']) ++ last) := by
      obtain ⟨hl, -⟩ := forall_mem_cons.1 hinit
      have hreturn : '\n' ∉ l ++ ['\r'] := by simp [hl]
      have hsplit : (l :: rest).flatMap (· ++ ['\r', '\n']) ++ last =
          (l ++ ['\r']) ++ '\n' :: (rest.flatMap (· ++ ['\r', '\n']) ++ last) := by simp
      rw [hsplit, hasPairedBreak_append_newline hreturn]
      simp
    rw [lineBreakOf, if_pos hpaired]
  · have hplain : hasPairedBreak (init.flatMap (· ++ ['\n']) ++ last) = false := by
      rw [hasPairedBreak_lines hinit hlast, any_eq_false]
      simpa using hends
    refine ⟨by rw [unifyBreaks_of_not_hasPairedBreak hplain, splitLines_lines hinit hlast], ?_⟩
    rw [lineBreakOf, if_neg (by simp [hplain])]

/-- **Lines are read back as they were written**, and so are their breaks. -/
theorem Writable.read {newline : List Char} {final : Prop} [Decidable final]
    (h : Writable newline lines final) :
    let text := joinLines newline lines ++ if final then newline else []
    listingLines text = lines ∧ lineBreakOf text = newline ∧
      (text.getLast? = some '\n' ↔ final) := by
  obtain ⟨feedFree, many, lastNonempty, ends⟩ := h
  rcases eq_nil_or_concat' lines with rfl | ⟨init, last, rfl⟩
  · simp at many
  have hinit : ∀ l ∈ init, '\n' ∉ l := fun l hl => feedFree l (by simp [hl])
  have hlast : '\n' ∉ last := feedFree last (by simp)
  have hne : init ≠ [] := by
    rintro rfl
    simp at many
  simp only [dropLast_concat, getLast?_concat, Option.some.injEq, forall_eq'] at ends
  rw [joinLines_concat]
  by_cases hfinal : final
  · -- every line is closed by a break, and an empty piece stands behind the last
    have hall : newline = ['\r', '\n'] ∨
        newline = ['\n'] ∧ ∀ l ∈ init ++ [last], l.getLast? ≠ some '\r' :=
      ends.imp_right fun hends => ⟨hends.1, by
        simpa [or_imp, forall_and] using ⟨hends.2.1, hends.2.2 hfinal⟩⟩
    have hnil : '\n' ∉ ([] : List Char) := not_mem_nil
    obtain ⟨hsplit, hbreak⟩ := read_lines feedFree hnil (by simp) hall
    have htext : init.flatMap (· ++ newline) ++ last ++ newline =
        (init ++ [last]).flatMap (· ++ newline) ++ [] := by simp
    have hends : (init.flatMap (· ++ newline) ++ last ++ newline).getLast? = some '\n' := by
      rcases ends with rfl | ⟨rfl, -⟩ <;> simp
    simp only [if_pos hfinal]
    refine ⟨?_, by rw [htext, hbreak], iff_of_true hends hfinal⟩
    rw [listingLines, if_pos hends, htext, hsplit, dropLast_concat]
  · obtain ⟨hsplit, hbreak⟩ := read_lines hinit hlast hne (ends.imp_right fun h => ⟨h.1, h.2.1⟩)
    have hend : (init.flatMap (· ++ newline) ++ last).getLast? ≠ some '\n' := by
      have hnonempty : last ≠ [] := by simpa using lastNonempty hfinal
      rw [getLast?_append_of_ne_nil _ hnonempty]
      exact fun hmem => hlast (mem_of_getLast? hmem)
    simp only [if_neg hfinal, append_nil]
    refine ⟨?_, hbreak, iff_of_false hend hfinal⟩
    rw [listingLines, if_neg hend, hsplit]

/-! ## The lines of a text -/

variable {text : List Char}

theorem listingLines_feedFree (h : l ∈ listingLines text) : '\n' ∉ l := by
  rw [listingLines] at h
  split at h
  · exact notMem_of_mem_splitLines (mem_of_mem_dropLast h)
  · exact notMem_of_mem_splitLines h

/-- Without a break at the end something stands on the last line. -/
theorem listingLines_lastNonempty (hne : text ≠ []) (h : text.getLast? ≠ some '\n') :
    (listingLines text).getLast? ≠ some [] := by
  obtain ⟨init, last, htext, -, -, hsplit⟩ := exists_splitLines_eq (unifyBreaks text)
  rw [listingLines, if_neg h, hsplit, getLast?_concat, Ne, Option.some.injEq]
  rintro rfl
  have hlast := getLast?_unifyBreaks text
  rw [htext, append_nil] at hlast
  rcases eq_nil_or_concat' init with rfl | ⟨rest, l, rfl⟩
  · exact hne (getLast?_eq_none_iff.1 hlast.symm)
  · rw [flatMap_append, flatMap_singleton, ← append_assoc,
      getLast?_concat] at hlast
    exact h hlast.symm

/-- Where breaks are bare line feeds, only the end of the text can leave a line with a carriage
return at its end. -/
theorem listingLines_ends (h : lineBreakOf text = ['\n']) :
    (∀ l ∈ (listingLines text).dropLast, l.getLast? ≠ some '\r') ∧
      ∀ l ∈ listingLines text, l.getLast? = some '\r' → text.getLast? = some '\r' := by
  have hplain : hasPairedBreak text = false := by
    cases hpaired : hasPairedBreak text
    · rfl
    · simp [lineBreakOf, hpaired] at h
  obtain ⟨init, last, htext, hinit, hlast, hsplit⟩ := exists_splitLines_eq text
  have hends : ∀ l ∈ init, l.getLast? ≠ some '\r' := by
    rw [htext, hasPairedBreak_lines hinit hlast, any_eq_false] at hplain
    simpa using hplain
  rw [listingLines, unifyBreaks_of_not_hasPairedBreak hplain, hsplit]
  split
  · rw [dropLast_concat]
    exact ⟨fun l hl => hends l (mem_of_mem_dropLast hl),
      fun l hl hreturn => absurd hreturn (hends l hl)⟩
  · rw [dropLast_concat]
    refine ⟨hends, fun l hl hreturn => ?_⟩
    rcases mem_append.1 hl with hl | hl
    · exact absurd hreturn (hends l hl)
    · rw [mem_singleton.1 hl] at hreturn
      have hnonempty : last ≠ [] := by
        rintro rfl
        cases hreturn
      rw [htext, getLast?_append_of_ne_nil _ hnonempty, hreturn]

end RobotSource.Listing
