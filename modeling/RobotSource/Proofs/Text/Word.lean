import Mathlib.Data.List.TakeWhile
import RobotSource.Text.Word
/-!
# The word at a place of a line

A place touches the characters on its two sides. Where one of them belongs to a word, `wordAt?` finds
the whole word: the only run of word characters that touches the place and cannot be made longer at
either end (`wordAt?_exact`).
-/

namespace RobotSource.Text

open List

/-- A word character stands at the index. -/
def isWordAt (text : List Char) (i : Nat) : Bool := text[i]?.any isWordPart

/-- The word consists of word characters of the line, touches the place, and has no word character
next to it. -/
structure LineWord.Touches (line : List Char) (place : Nat) (w : LineWord) : Prop where
  nonempty : w.start < w.stop
  start_le : w.start ≤ place
  le_stop : place ≤ w.stop
  text_eq : w.text = (line.take w.stop).drop w.start
  within : ∀ i, w.start ≤ i → i < w.stop → isWordAt line i = true
  before : ∀ i, i + 1 = w.start → isWordAt line i = false
  behind : isWordAt line w.stop = false

variable {line : List Char} {place : Nat}

/-- No two words touch one place: the end of the one would lie inside the other. -/
theorem LineWord.Touches.unique {w w' : LineWord} (h : w.Touches line place)
    (h' : w'.Touches line place) : w = w' := by
  have start_le {v v' : LineWord} (hv : v.Touches line place) (hv' : v'.Touches line place) :
      v.start ≤ v'.start := by
    by_contra hlt
    have hout := hv.before (v.start - 1) (by omega)
    rw [hv'.within _ (by omega) (by have := hv.start_le; have := hv'.le_stop; omega)] at hout
    cases hout
  have stop_le {v v' : LineWord} (hv : v.Touches line place) (hv' : v'.Touches line place) :
      v.stop ≤ v'.stop := by
    by_contra hlt
    have hout := hv'.behind
    rw [hv.within _ (hv.start_le.trans hv'.le_stop) (by omega)] at hout
    cases hout
  have hstart : w.start = w'.start := (start_le h h').antisymm (start_le h' h)
  have hstop : w.stop = w'.stop := (stop_le h h').antisymm (stop_le h' h)
  have htext : w.text = w'.text := by rw [h.text_eq, h'.text_eq, hstart, hstop]
  cases w
  cases w'
  simp_all

/-- A place that a word touches has a word character beside it. -/
theorem LineWord.Touches.word_beside {w : LineWord} (h : w.Touches line place) :
    ¬(isWordAt line place = false ∧ ∀ i, i + 1 = place → isWordAt line i = false) := by
  rintro ⟨hhere, hleft⟩
  have hstart := h.start_le
  rcases h.le_stop.lt_or_eq with hlt | heq
  · rw [h.within place hstart hlt] at hhere
    cases hhere
  · have hlt := h.nonempty
    have hout := hleft (place - 1) (by omega)
    rw [h.within _ (by omega) (by omega)] at hout
    cases hout

/-! ## Runs of word characters -/

/-- A text begins with word characters as far as the run reaches, and with none right behind it. -/
theorem isWordAt_iff_of_le {text : List Char} {i : Nat}
    (h : i ≤ (text.takeWhile isWordPart).length) :
    isWordAt text i ↔ i < (text.takeWhile isWordPart).length := by
  induction text generalizing i with
  | nil => simp [isWordAt]
  | cons c text ih =>
    cases hc : isWordPart c with
    | false =>
      rw [takeWhile_cons_of_neg (by simp [hc])] at h ⊢
      simp [isWordAt, Nat.le_zero.1 h, hc]
    | true =>
      rw [takeWhile_cons_of_pos hc] at h ⊢
      cases i with
      | zero => simp [isWordAt, hc]
      | succ i => simpa [isWordAt] using ih (Nat.le_of_succ_le_succ h)

/-- Read from a place to the left, a line shows the same word characters. -/
theorem isWordAt_reverse_take (hplace : place ≤ line.length) {i j : Nat} (h : i + j + 1 = place) :
    isWordAt (line.take place).reverse j = isWordAt line i := by
  have hlen : (line.take place).length = place := length_take_of_le hplace
  rw [isWordAt, isWordAt, getElem?_reverse (by omega), hlen,
    getElem?_take_of_lt (by omega)]
  congr 2
  omega

theorem isWordAt_drop (i : Nat) : isWordAt (line.drop place) i = isWordAt line (place + i) := by
  rw [isWordAt, isWordAt, getElem?_drop]

/-- **What is found touches the place**: the run that ends there and the run that begins there. -/
theorem touches_runs (hplace : place ≤ line.length) {u v : List Char}
    (hu : u = (line.take place).reverse.takeWhile isWordPart)
    (hv : v = (line.drop place).takeWhile isWordPart) (hne : 0 < u.length + v.length) :
    LineWord.Touches line place ⟨u.reverse ++ v, place - u.length, place + v.length⟩ := by
  have hlen : (line.take place).length = place := length_take_of_le hplace
  have hleft : u.reverse = (line.take place).drop (place - u.length) := by
    have hsuffix : u.reverse <:+ line.take place := by
      rw [← reverse_prefix, reverse_reverse, hu]
      exact takeWhile_prefix _
    have hdrop := suffix_iff_eq_drop.1 hsuffix
    rwa [length_reverse, hlen] at hdrop
  have hright : v = (line.drop place).take v.length := by
    rw [← prefix_iff_eq_take, hv]
    exact takeWhile_prefix _
  have hle : u.length ≤ place := by
    have hdrop := congrArg List.length hleft
    rw [length_reverse, length_drop, hlen] at hdrop
    omega
  have onLeft {i j : Nat} (h : i + j + 1 = place) (hj : j ≤ u.length) :
      isWordAt line i ↔ j < u.length := by
    rw [← isWordAt_reverse_take hplace h, hu]
    exact isWordAt_iff_of_le (hu ▸ hj)
  have onRight {j : Nat} (hj : j ≤ v.length) : isWordAt line (place + j) ↔ j < v.length := by
    rw [← isWordAt_drop, hv]
    exact isWordAt_iff_of_le (hv ▸ hj)
  refine ⟨?_, Nat.sub_le _ _, Nat.le_add_right _ _, ?_, fun i hstart hstop => ?_, fun i hi => ?_, ?_⟩
  · show place - u.length < place + v.length
    omega
  · show u.reverse ++ v = (line.take (place + v.length)).drop (place - u.length)
    rw [take_add, drop_append_of_le_length (by omega), ← hleft, ← hright]
  · change place - u.length ≤ i at hstart
    change i < place + v.length at hstop
    rcases Nat.lt_or_ge i place with hi | hi
    · exact (onLeft (j := place - 1 - i) (by omega) (by omega)).2 (by omega)
    · obtain ⟨j, rfl⟩ := Nat.exists_eq_add_of_le hi
      exact (onRight (by omega)).2 (by omega)
  · change i + 1 = place - u.length at hi
    rw [← Bool.not_eq_true, onLeft (j := u.length) (by omega) (Nat.le_refl _)]
    omega
  · rw [← Bool.not_eq_true, onRight (Nat.le_refl _)]
    omega

/-- **The word at a place is the word that touches it.** There is none exactly where neither of the
characters beside the place is a word character; beyond the line, the place is its end. -/
theorem wordAt?_exact (line : List Char) (index : Nat) :
    (wordAt? line index = none ↔ isWordAt line (min index line.length) = false ∧
      ∀ i, i + 1 = min index line.length → isWordAt line i = false) ∧
    ∀ w, wordAt? line index = some w ↔ w.Touches line (min index line.length) := by
  have hplace : min index line.length ≤ line.length := Nat.min_le_right _ _
  rw [wordAt?]
  generalize min index line.length = place at hplace ⊢
  generalize hu : (line.take place).reverse.takeWhile isWordPart = u
  generalize hv : (line.drop place).takeWhile isWordPart = v
  by_cases hne : 0 < u.length + v.length
  · have htouches := touches_runs hplace hu.symm hv.symm hne
    have hfound : (u.isEmpty && v.isEmpty) = false := by
      rw [← Bool.not_eq_true, Bool.and_eq_true, isEmpty_iff_length_eq_zero,
        isEmpty_iff_length_eq_zero]
      omega
    simp only [hfound, Bool.false_eq_true, if_false, Option.some.injEq]
    exact ⟨iff_of_false nofun htouches.word_beside,
      fun w => ⟨fun h => h ▸ htouches, htouches.unique⟩⟩
  · obtain ⟨rfl, rfl⟩ : u = [] ∧ v = [] := by
      rw [← length_eq_zero_iff, ← length_eq_zero_iff]
      omega
    have hbeside : isWordAt line place = false ∧ ∀ i, i + 1 = place → isWordAt line i = false := by
      constructor
      · rw [← Nat.add_zero place, ← isWordAt_drop, ← Bool.not_eq_true, isWordAt_iff_of_le (by simp)]
        simp [hv]
      · intro i hi
        rw [← isWordAt_reverse_take hplace (j := 0) hi, ← Bool.not_eq_true,
          isWordAt_iff_of_le (by simp)]
        simp [hu]
    simp only [isEmpty_nil, Bool.and_self, if_true]
    exact ⟨iff_of_true trivial hbeside, fun w => iff_of_false nofun fun h => h.word_beside hbeside⟩

end RobotSource.Text
