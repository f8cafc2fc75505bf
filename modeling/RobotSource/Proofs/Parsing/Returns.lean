import RobotSource.Proofs.Parsing.Enclosed
import RobotSource.Proofs.Parsing.Line
/-!
# Texts with carriage returns

A text and the same text with a carriage return before every line feed are read alike. Up to the end
of a line the two are the same (`Returned.moves`), so that all tokens are; the break is one character
on the one side and two on the other, and behind it the same line begins (`keeps_lineBreak_returned`).
-/

namespace RobotSource

open Text List

/-! ## Texts -/

namespace Text

/-- The text with a carriage return before every line feed. -/
def withReturns (t : List Char) : List Char :=
  t.flatMap fun x => if x = '\n' then ['\r', '\n'] else [x]

@[simp] theorem withReturns_nil : withReturns [] = [] := rfl

@[simp] theorem withReturns_feed (t : List Char) :
    withReturns ('\n' :: t) = '\r' :: '\n' :: withReturns t := rfl

theorem withReturns_cons {x : Char} (hx : x ≠ '\n') (t : List Char) :
    withReturns (x :: t) = x :: withReturns t := by
  rw [withReturns, flatMap_cons, if_neg hx]
  rfl

theorem withReturns_append (s t : List Char) :
    withReturns (s ++ t) = withReturns s ++ withReturns t :=
  flatMap_append

/-- Within a line nothing changes. -/
theorem withReturns_of_notMem {t : List Char} (h : '\n' ∉ t) : withReturns t = t := by
  induction t with
  | nil => rfl
  | cons x t ih =>
    rw [mem_cons, not_or] at h
    rw [withReturns_cons (Ne.symm h.1), ih h.2]

theorem withReturns_eq_nil_iff (t : List Char) : withReturns t = [] ↔ t = [] := by
  cases t with
  | nil => simp
  | cons x t =>
    by_cases hx : x = '\n'
    · simp [hx]
    · simp [withReturns_cons hx]

theorem head?_withReturns_eq_iff {x : Char} (hx : Parsing.isBreak x = false) (t : List Char) :
    (withReturns t).head? = some x ↔ t.head? = some x := by
  have hne : x ≠ '\n' ∧ x ≠ '\r' := by
    constructor <;> rintro rfl <;> cases hx
  cases t with
  | nil => rfl
  | cons y t =>
    by_cases hy : y = '\n'
    · rw [hy, withReturns_feed, head?_cons, head?_cons, Option.some_inj, Option.some_inj]
      exact iff_of_false hne.2.symm hne.1.symm
    · rw [withReturns_cons hy, head?_cons, head?_cons]

section
variable {q : Char → Bool}

/-- A run that tells the characters of a break not apart takes the same of both texts. -/
theorem takeWhile_withReturns (hq : q '\r' = q '\n') (t : List Char) :
    (withReturns t).takeWhile q = withReturns (t.takeWhile q) := by
  induction t with
  | nil => rfl
  | cons x t ih =>
    by_cases hx : x = '\n'
    · rw [hx, withReturns_feed]
      cases hfeed : q '\n' with
      | true => simp [hq, hfeed, ih]
      | false => simp [hq, hfeed]
    · rw [withReturns_cons hx]
      cases hqx : q x with
      | true => simp [hqx, ih, withReturns_cons hx]
      | false => simp [hqx]

theorem dropWhile_withReturns (hq : q '\r' = q '\n') (t : List Char) :
    (withReturns t).dropWhile q = withReturns (t.dropWhile q) := by
  have hsplit : (withReturns t).takeWhile q ++ (withReturns t).dropWhile q =
      withReturns (t.takeWhile q) ++ withReturns (t.dropWhile q) := by
    rw [← withReturns_append, takeWhile_append_dropWhile, takeWhile_append_dropWhile]
  rw [takeWhile_withReturns hq] at hsplit
  exact append_cancel_left hsplit

end

/-- The lines of both texts are the same. -/
theorem splitLines_withReturns (t : List Char) :
    ∃ ls l, splitLines t = ls ++ [l] ∧
      splitLines (withReturns t) = ls.map (· ++ ['\r']) ++ [l] := by
  induction t with
  | nil => exact ⟨[], [], rfl, rfl⟩
  | cons x t ih =>
    obtain ⟨ls, l, hleft, hright⟩ := ih
    by_cases hx : x = '\n'
    · refine ⟨[] :: ls, l, ?_, ?_⟩
      · rw [hx, splitLines, if_pos rfl, hleft]
        rfl
      · rw [hx, withReturns_feed, splitLines, if_neg (by decide), splitLines, if_pos rfl, hright]
        rfl
    · rw [withReturns_cons hx, splitLines, splitLines, if_neg hx, if_neg hx, hleft, hright]
      cases ls with
      | nil => exact ⟨[], x :: l, rfl, rfl⟩
      | cons l' ls => exact ⟨(x :: l') :: ls, l, rfl, rfl⟩

/-- **The reader sees the same lines.** -/
theorem textLines_withReturns {t : List Char} (h : '\r' ∉ t) :
    textLines (withReturns t) = textLines t := by
  obtain ⟨ls, l, hleft, hright⟩ := splitLines_withReturns t
  have hclosed : (ls.map (· ++ ['\r'])).map dropOneReturn = ls.map dropOneReturn := by
    rw [map_map]
    refine map_congr_left fun line hline => ?_
    have hlast : line.getLast? ≠ some '\r' := fun hlast =>
      h (mem_of_mem_splitLines (hleft ▸ mem_append_left _ hline) (mem_of_getLast? hlast))
    rw [Function.comp_apply, dropOneReturn, dropOneReturn, if_pos getLast?_concat,
      dropLast_concat, if_neg hlast]
  rw [textLines, textLines, hleft, hright]
  simp only [dropLast_concat, getLast?_concat, hclosed]

end Text

namespace Parsing

/-! ## Places -/

/-- The same place in a text without carriage returns, and in that text with a carriage return before
every line feed. -/
structure Returned (text : List Char) (c d : Cursor) : Prop where
  bare : '\r' ∉ text
  suffix : c.rest <:+ text
  rest : withReturns c.rest = d.rest
  position : c.position = d.position

variable {text : List Char} {c d c' d' : Cursor} {n m : Nat}

theorem afterAll_withReturns (p : Position) (u : List Char) :
    p.afterAll (withReturns u) = p.afterAll u := by
  induction u generalizing p with
  | nil => rfl
  | cons x u ih =>
    by_cases hx : x = '\n'
    · rw [hx, withReturns_feed, Position.afterAll_cons, Position.afterAll_cons,
        Position.afterAll_cons, ih]
      rfl
    · rw [withReturns_cons hx, Position.afterAll_cons, Position.afterAll_cons, ih]

namespace Returned

theorem drop (h : Returned text c d) (k : Nat) :
    Returned text (c.drop k) (d.drop (withReturns (c.rest.take k)).length) where
  bare := h.bare
  suffix := (drop_suffix k c.rest).trans h.suffix
  rest := by
    rw [Cursor.rest_drop, Cursor.rest_drop, ← h.rest]
    conv_rhs => rw [← take_append_drop k c.rest, withReturns_append, take_append_drop]
    rw [drop_left]
  position := by
    have hsplit : d.rest = withReturns (c.rest.take k) ++ withReturns (c.rest.drop k) := by
      rw [← withReturns_append, take_append_drop, h.rest]
    simp only [Cursor.drop, ← h.position]
    rw [hsplit, take_left, afterAll_withReturns]

/-- Within a line both sides move alike. -/
theorem drop_line (h : Returned text c d) {k : Nat} (hk : k ≤ c.rest.length)
    (hline : '\n' ∉ c.rest.take k) : Returned text (c.drop k) (d.drop k) := by
  have hdrop := h.drop k
  rwa [withReturns_of_notMem hline, length_take_of_le hk] at hdrop

theorem upTo (h : Returned text c d) (h' : Returned text c' d')
    (hle : c'.rest.length ≤ c.rest.length) : withReturns (c.upTo c') = d.upTo d' := by
  obtain ⟨w, hw⟩ := suffix_of_suffix_length_le h'.suffix h.suffix hle
  have hd : d.rest = withReturns w ++ d'.rest := by rw [← h.rest, ← h'.rest, ← hw, withReturns_append]
  rw [Cursor.upTo, Cursor.upTo, ← hw, hd, length_append, length_append,
    Nat.add_sub_cancel, Nat.add_sub_cancel, take_left, take_left]

theorem atEnd (h : Returned text c d) : c.atEnd = d.atEnd := by
  rw [Cursor.atEnd, Cursor.atEnd, ← h.rest, Bool.eq_iff_iff, List.isEmpty_iff, List.isEmpty_iff,
    withReturns_eq_nil_iff]

theorem returnFree (h : Returned text c d) : '\r' ∉ c.rest := fun hmem =>
  h.bare (h.suffix.subset hmem)

end Returned

/-! ## The rest of a line -/

/-- The line is over: the text is too, or a break follows. -/
def LineOver (s : List Char) : Prop := s = [] ∨ Breaks s

theorem encloses_lineOver : Encloses isBreak LineOver where
  toDelimiter := delimiter_isBreak
  begins x s h := by
    rcases h with h | h
    · cases h
    · exact h.isBreak_head
  ends q s y hq h hy := by
    rcases h with rfl | ⟨b, t, hb, rfl⟩
    · cases hy
    rcases hb with rfl | rfl
    · rw [singleton_append, dropWhile_cons_of_neg (by simp [hq])] at hy
      cases hy
      rfl
    · rw [cons_append, dropWhile_cons] at hy
      split at hy
      · rw [singleton_append, dropWhile_cons_of_neg (by simp [hq])] at hy
        cases hy
        rfl
      · cases hy
        rfl

/-- A text is its first line and what follows it. -/
theorem exists_line (t : List Char) : ∃ u s, t = u ++ s ∧ '\n' ∉ u ∧ (s = [] ∨ ∃ r, s = '\n' :: r) := by
  refine ⟨t.takeWhile (· != '\n'), t.dropWhile (· != '\n'),
    takeWhile_append_dropWhile.symm, fun hmem => ?_, ?_⟩
  · have hne := all_eq_true.1 all_takeWhile _ hmem
    simp at hne
  · cases hs : t.dropWhile (· != '\n') with
    | nil => exact .inl rfl
    | cons x r =>
      have hx := head?_dropWhile_not (· != '\n') t
      rw [hs] at hx
      simp only [head?_cons, bne_eq_false_iff_eq] at hx
      exact .inr ⟨r, by rw [hx]⟩

/-- Up to the end of the line, the same characters stand on both sides. -/
theorem Returned.moves_of {P : List Char → Prop} {u s : List Char} (h : Returned text c d)
    (hc : c.rest = u ++ s) (hline : '\n' ∉ u) (hs : P s) (hs' : P (withReturns s)) :
    Moves P (Returned text) c d := by
  have hd : d.rest = u ++ withReturns s := by
    rw [← h.rest, hc, withReturns_append, withReturns_of_notMem hline]
  refine ⟨u, ⟨⟨s, hc, hs⟩, ⟨_, hd, hs'⟩⟩, ?_⟩
  rintro _ _ ⟨k, hk, rfl, rfl⟩
  refine h.drop_line (by rw [hc, length_append]; omega) fun hmem => hline ?_
  rw [hc, take_append_of_le_length hk] at hmem
  exact mem_of_mem_take hmem

theorem breaks_feed (r : List Char) : Breaks ('\n' :: r) := ⟨['\n'], r, .inl rfl, rfl⟩

theorem breaks_withReturns_feed (r : List Char) : Breaks (withReturns ('\n' :: r)) :=
  ⟨['\r', '\n'], withReturns r, .inr rfl, rfl⟩

theorem Returned.moves (h : Returned text c d) : Moves LineOver (Returned text) c d := by
  obtain ⟨u, s, hc, hline, rfl | ⟨r, rfl⟩⟩ := exists_line c.rest
  · exact h.moves_of hc hline (.inl rfl) (.inl rfl)
  · exact h.moves_of hc hline (.inr (breaks_feed r)) (.inr (breaks_withReturns_feed r))

/-- Words are found alike: on the last line the texts are the same, and any other line has a break. -/
theorem Returned.matches {word : List Char} (hword : isApart isBreak word)
    (h : Returned text c d) : Matches (Returned text) word c d := by
  obtain ⟨u, s, hc, hline, rfl | ⟨r, rfl⟩⟩ := exists_line c.rest
  · rw [append_nil] at hc
    rw [← hc] at hline
    refine matches_of_rest_eq (by rw [← h.rest, withReturns_of_notMem hline]) fun k => ?_
    rcases Nat.le_total k c.rest.length with hk | hk
    · exact h.drop_line hk fun hmem => hline (mem_of_mem_take hmem)
    · have hdrop := h.drop_line (Nat.le_refl _) (by rwa [take_length])
      have hlen : d.rest.length = c.rest.length := by rw [← h.rest, withReturns_of_notMem hline]
      have hpast {c : Cursor} (hle : c.rest.length ≤ k) : c.drop k = c.drop c.rest.length := by
        rw [Cursor.drop, Cursor.drop, drop_of_length_le hle, take_of_length_le hle,
          drop_length, take_length]
      rw [hpast hk, hpast (c := d) (by omega), hlen]
      exact hdrop
  · exact (h.moves_of hc hline (breaks_feed r) (breaks_withReturns_feed r)).matches delimits_breaks
      not_breaks_nil hword

/-! ## Runs and breaks -/

theorem keeps_takeWhile_returned {q : Char → Bool} (hq : q '\r' = q '\n') :
    Keeps (Returned text) (Returned text) (fun a b => withReturns a = b) (takeWhile q)
      (takeWhile q) := by
  intro c d hcd
  have hdrop := hcd.drop (c.rest.takeWhile q).length
  rw [take_length_takeWhile] at hdrop
  rw [takeWhile, takeWhile, ← hcd.rest, takeWhile_withReturns hq]
  exact .done rfl hdrop

theorem keeps_spaces_returned :
    Keeps (Returned text) (Returned text) (fun _ _ => True) spaces spaces :=
  (keeps_takeWhile_returned rfl).bind fun _ _ _ => .pure trivial

theorem keeps_lineBreak_returned :
    Agrees (Returned text) (Returned text) lineBreak fun _ _ => True := by
  intro c d hcd
  have hbare := hcd.returnFree
  rw [lineBreak, lineBreak, ← hcd.rest]
  cases hrest : c.rest with
  | nil => exact .failed
  | cons x t =>
    by_cases hx : x = '\n'
    · rw [hx, withReturns_feed]
      have hdrop := hcd.drop 1
      rw [hrest, hx] at hdrop
      exact .done trivial hdrop
    · have hx' : x ≠ '\r' := fun h => hbare (by rw [hrest, h]; exact mem_cons_self)
      rw [withReturns_cons hx]
      split
      · rename_i heq
        exact absurd (List.cons.inj heq).1 hx
      · rename_i heq
        exact absurd (List.cons.inj heq).1 hx'
      · split
        · rename_i heq
          exact absurd (List.cons.inj heq).1 hx
        · rename_i heq
          exact absurd (List.cons.inj heq).1 hx'
        · exact .failed

end Parsing

end RobotSource
