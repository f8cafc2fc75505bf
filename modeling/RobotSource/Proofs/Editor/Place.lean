import Mathlib.Tactic.Common
import RobotSource.Editor.Place
import RobotSource.Proofs.Text.Lines
import RobotSource.Proofs.Text.Trimming
/-!
# Places name offsets

An editor names an offset of its text by the line feeds before it and the units since the last of
them (`placeOf`). Reading such a place back with `offsetOf?` gives the offset again
(`offsetOf?_placeOf`), with one exception: carriage returns at the end of a line are not counted as
part of it, so an offset behind one of them (`InReturns`) is drawn back before them.
-/

namespace RobotSource.Text.Encoding

variable {enc : Encoding} {a b : List Char}

/-- Every character takes up room. -/
theorem units_pos (enc : Encoding) (c : Char) : 0 < enc.units c := by
  cases enc with
  | utf16 =>
    simp only [units]
    split <;> omega
  | utf32 => exact Nat.zero_lt_one

/-- **Units and characters of the beginning of a line are two counts of one thing.** -/
theorem charsWithin_count_append : enc.charsWithin (a ++ b) (enc.count a) = a.length := by
  induction a with
  | nil => cases b <;> simp [count, charsWithin]
  | cons c a ih =>
    have hpos := units_pos enc c
    have hne : enc.count (c :: a) ≠ 0 := by rw [count]; omega
    rw [List.cons_append, charsWithin, if_neg hne, count, Nat.add_sub_cancel_left, ih,
      List.length_cons]

end RobotSource.Text.Encoding

namespace RobotSource.Editor

open Text List

variable {enc : Encoding} {u v text : List Char} {n : Nat}

/-! ## The place of an offset -/

/-- What stands behind the last line feed of a text. -/
def lastLine (text : List Char) : List Char :=
  (text.reverse.takeWhile (· != '\n')).reverse

/-- The place of an offset, as an editor names it: the line feeds before it, and the units since the
last of them. -/
def placeOf (enc : Encoding) (text : List Char) (offset : Nat) : Position :=
  ⟨(text.take offset).count '\n', enc.count (lastLine (text.take offset))⟩

/-- An offset among the carriage returns at the end of a line: just behind one of them, with nothing
but carriage returns up to the next line feed or the end of the text. -/
def InReturns (text : List Char) (offset : Nat) : Prop :=
  (text.take offset).getLast? = some '\r' ∧
    ((text.drop offset).dropWhile (· == '\r')).head?.all (· == '\n') = true

instance (text : List Char) (offset : Nat) : Decidable (InReturns text offset) :=
  inferInstanceAs (Decidable (_ ∧ _))

/-! ## Last lines and first lines -/

theorem lastLine_of_notMem (h : '\n' ∉ u) : lastLine u = u := by
  rw [lastLine, takeWhile_eq_self_iff.2, reverse_reverse]
  intro c hc
  have hne : c ≠ '\n' := fun heq => h (heq ▸ mem_reverse.1 hc)
  simpa using hne

theorem lastLine_cons_of_mem {c : Char} (h : '\n' ∈ u) : lastLine (c :: u) = lastLine u := by
  have hstop : ∃ x ∈ u.reverse, ¬ (x != '\n') = true := ⟨'\n', mem_reverse.2 h, by simp⟩
  rw [lastLine, lastLine, reverse_cons, takeWhile_append, if_neg]
  intro hlen
  have hall := (List.takeWhile_prefix (· != '\n')).eq_of_length hlen
  obtain ⟨x, hx, hne⟩ := hstop
  exact hne (takeWhile_eq_self_iff.1 hall x hx)

theorem lastLine_newline_cons : lastLine ('\n' :: u) = lastLine u := by
  by_cases hmem : '\n' ∈ u
  · exact lastLine_cons_of_mem hmem
  · rw [lastLine_of_notMem hmem, lastLine, reverse_cons, takeWhile_append_of_pos,
      takeWhile_cons_of_neg (by simp), append_nil, reverse_reverse]
    intro x hx
    have hne : x ≠ '\n' := fun heq => hmem (heq ▸ mem_reverse.1 hx)
    simpa using hne

theorem length_lastLine_le : (lastLine u).length ≤ u.length := by
  rw [lastLine, length_reverse]
  exact (List.takeWhile_prefix _).length_le.trans_eq length_reverse

/-! ## Reading a place back -/

/-- **The rows of a text up to the one in which a beginning of it ends.** -/
theorem exists_rows_append (u v : List Char) : ∃ before rest,
    splitLines (u ++ v) = before ++ (lastLine u ++ v.takeWhile (· != '\n')) :: rest ∧
      u.count '\n' = before.length ∧
      u.length = before.foldr (·.length + 1 + ·) 0 + (lastLine u).length := by
  induction u with
  | nil =>
    obtain ⟨rest, hrest⟩ := exists_splitLines_append (u := []) (v := v) not_mem_nil
    exact ⟨[], rest, hrest, rfl, rfl⟩
  | cons c u ih =>
    obtain ⟨before, rest, hsplit, hcount, hlength⟩ := ih
    rw [List.cons_append, splitLines, hsplit]
    by_cases hc : c = '\n'
    · subst hc
      refine ⟨[] :: before, rest, ?_, ?_, ?_⟩
      · rw [if_pos rfl, lastLine_newline_cons, List.cons_append]
      · rw [count_cons_self, hcount, List.length_cons]
      · simp only [lastLine_newline_cons, foldr_cons, List.length_cons, length_nil]
        omega
    · rw [count_cons_of_ne hc, hcount, List.length_cons, hlength, if_neg hc]
      cases before with
      | nil =>
        have hnot : '\n' ∉ u := count_eq_zero.1 hcount
        rw [lastLine_of_notMem (u := c :: u) (by simp [hnot, Ne.symm hc]), lastLine_of_notMem hnot]
        exact ⟨[], rest, rfl, rfl, by simp⟩
      | cons line before =>
        rw [lastLine_cons_of_mem (count_pos_iff.1 (hcount ▸ Nat.succ_pos _))]
        refine ⟨(c :: line) :: before, rest, rfl, rfl, ?_⟩
        simp only [foldr_cons, List.length_cons]
        omega

/-- The row in which a beginning of the text ends. -/
theorem getElem?_splitLines_append (u v : List Char) :
    (splitLines (u ++ v))[u.count '\n']? = some (lastLine u ++ v.takeWhile (· != '\n')) := by
  obtain ⟨before, rest, hsplit, hcount, -⟩ := exists_rows_append u v
  simp [hsplit, hcount]

/-- Where the line of a place begins is settled by the line feeds before it. -/
theorem offsetInLines?_append (character : Nat) :
    offsetInLines? enc (splitLines (u ++ v)) (u.count '\n') character =
      some (u.length - (lastLine u).length +
        enc.charsWithin (dropReturns (lastLine u ++ v.takeWhile (· != '\n'))) character) := by
  obtain ⟨before, rest, hsplit, hcount, hlength⟩ := exists_rows_append u v
  rw [hsplit, hcount, hlength, Nat.add_sub_cancel]
  clear hsplit hcount hlength
  induction before with
  | nil => simp [offsetInLines?]
  | cons line before ih => simp [offsetInLines?, ih, Nat.add_assoc]

/-- Outside the carriage returns at its end a line keeps what stands before an offset. -/
theorem dropReturns_lastLine_append (h : ¬ InReturns (u ++ v) u.length) :
    ∃ w, dropReturns (lastLine u ++ v.takeWhile (· != '\n')) = lastLine u ++ w := by
  rw [InReturns, take_left, drop_left, not_and_or] at h
  rcases h with hu | hv
  · refine ⟨_, dropEndWhile_append_of_getLast fun x hx => ?_⟩
    rw [lastLine, getLast?_reverse] at hx
    have hhead : u.reverse.head? = some x := by
      cases hrev : u.reverse with
      | nil => simp [hrev] at hx
      | cons y ys =>
        rw [hrev, takeWhile_cons] at hx
        split at hx
        · exact hx
        · simp at hx
    rw [head?_reverse] at hhead
    have hne : x ≠ '\r' := fun heq => hu (heq ▸ hhead)
    simpa using hne
  · refine ⟨_, dropEndWhile_append_of_ne_nil fun hnil => hv ?_⟩
    have hall := dropEndWhile_eq_nil.1 hnil
    -- the line is carriage returns throughout, so what follows them is its line feed
    have hdrop : v.dropWhile (· == '\r') = (v.dropWhile (· != '\n')).dropWhile (· == '\r') := by
      conv_lhs => rw [← takeWhile_append_dropWhile (p := (· != '\n')) (l := v)]
      exact dropWhile_append_of_pos hall
    rw [hdrop]
    cases hrest : v.dropWhile (· != '\n') with
    | nil => simp
    | cons y ys =>
      have hy := head?_dropWhile_not (· != '\n') v
      rw [hrest] at hy
      have hfeed : y = '\n' := by simpa using hy
      subst hfeed
      simp

/-- **The place of an offset is read back as that offset**, unless it lies among the carriage
returns at the end of a line. -/
theorem offsetOf?_placeOf (hn : n ≤ text.length) (h : ¬ InReturns text n) :
    offsetOf? enc text (placeOf enc text n) = some n := by
  obtain ⟨u, v, rfl, rfl⟩ : ∃ u v, text = u ++ v ∧ n = u.length :=
    ⟨text.take n, text.drop n, (take_append_drop n text).symm, by simp [hn]⟩
  obtain ⟨w, hw⟩ := dropReturns_lastLine_append h
  rw [offsetOf?, placeOf, take_left, offsetInLines?_append, hw,
    Encoding.charsWithin_count_append, Nat.sub_add_cancel length_lastLine_le]

end RobotSource.Editor
