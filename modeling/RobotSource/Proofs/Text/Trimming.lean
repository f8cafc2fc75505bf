import Mathlib.Data.List.TakeWhile
import RobotSource.Text.Blank
/-!
# Cutting at the ends of a text

What `dropEndWhile` leaves of a text is the text without an end that satisfies the test, and it is
left alone by another cut. From this the trimming functions get their facts: trimming is done after
one time, and it reaches no further than the first character that is kept.
-/

namespace RobotSource.Text

open List

/-- What is said of the characters of a text is decided along the text. -/
instance (priority := 2000) decidableForallMem {p : Char → Prop} [DecidablePred p]
    (cs : List Char) : Decidable (∀ c ∈ cs, p c) :=
  List.decidableBAll p cs

variable {p : Char → Bool} {a b cs : List Char} {c : Char}

/-! ## White space -/

/-- The white space characters, by their numbers. -/
def blankCodes : List Nat :=
  [9, 10, 11, 12, 13, 0x20, 0x85, 0xa0, 0x1680, 0x2000, 0x2001, 0x2002, 0x2003, 0x2004, 0x2005,
    0x2006, 0x2007, 0x2008, 0x2009, 0x200a, 0x2028, 0x2029, 0x202f, 0x205f, 0x3000]

/-- What holds of each white space character can be checked one by one. -/
theorem of_isBlank {p : Char → Prop} (hp : ∀ n ∈ blankCodes, p (Char.ofNat n))
    (h : isBlank c) : p c := by
  rw [← Char.ofNat_toNat c]
  refine hp c.toNat ?_
  simp only [isBlank, Bool.or_eq_true, Bool.and_eq_true, decide_eq_true_eq, beq_iff_eq] at h
  simp only [blankCodes, mem_cons, not_mem_nil, or_false]
  omega

/-! ## Cutting at the end -/

@[simp] theorem dropEndWhile_nil : dropEndWhile p [] = [] := rfl

theorem dropEndWhile_cons_of_ne_nil (h : dropEndWhile p cs ≠ []) :
    dropEndWhile p (c :: cs) = c :: dropEndWhile p cs := by
  rw [dropEndWhile]
  split
  · contradiction
  · rfl

theorem dropEndWhile_cons_of_eq_nil (h : dropEndWhile p cs = []) :
    dropEndWhile p (c :: cs) = if p c then [] else [c] := by
  rw [dropEndWhile, h]

/-- A text that keeps something keeps everything before it. -/
theorem dropEndWhile_append_of_ne_nil (h : dropEndWhile p b ≠ []) :
    dropEndWhile p (a ++ b) = a ++ dropEndWhile p b := by
  induction a with
  | nil => rfl
  | cons c a ih =>
    have hne : dropEndWhile p (a ++ b) ≠ [] := by simp [ih, h]
    rw [cons_append, dropEndWhile_cons_of_ne_nil hne, ih, cons_append]

/-- Nothing is cut off a text whose last character is kept. -/
theorem dropEndWhile_of_getLast (h : ∀ x, a.getLast? = some x → p x = false) :
    dropEndWhile p a = a := by
  induction a with
  | nil => rfl
  | cons c a ih =>
    cases a with
    | nil => simp [dropEndWhile, h c rfl]
    | cons d a =>
      have hd : dropEndWhile p (d :: a) = d :: a :=
        ih fun x hx => h x (by rw [getLast?_cons_cons]; exact hx)
      rw [dropEndWhile_cons_of_ne_nil (by simp [hd]), hd]

/-- What is cut off at the end is cut off behind a text as well. -/
theorem dropEndWhile_append_of_eq_nil (h : dropEndWhile p b = []) :
    dropEndWhile p (a ++ b) = dropEndWhile p a := by
  induction a with
  | nil => rw [nil_append, h, dropEndWhile_nil]
  | cons c a ih =>
    rw [cons_append]
    by_cases ha : dropEndWhile p a = []
    · rw [dropEndWhile_cons_of_eq_nil (by rw [ih, ha]), dropEndWhile_cons_of_eq_nil ha]
    · rw [dropEndWhile_cons_of_ne_nil (by rwa [ih]), dropEndWhile_cons_of_ne_nil ha, ih]

/-- **Cutting at the end stops at a character that is kept.** -/
theorem dropEndWhile_append_of_getLast (h : ∀ x, a.getLast? = some x → p x = false) :
    dropEndWhile p (a ++ b) = a ++ dropEndWhile p b := by
  by_cases hb : dropEndWhile p b = []
  · rw [dropEndWhile_append_of_eq_nil hb, dropEndWhile_of_getLast h, hb, append_nil]
  · exact dropEndWhile_append_of_ne_nil hb

/-- Nothing is left exactly of a text that satisfies the test throughout. -/
theorem dropEndWhile_eq_nil : dropEndWhile p cs = [] ↔ ∀ c ∈ cs, p c := by
  induction cs with
  | nil => simp
  | cons c cs ih =>
    by_cases h : dropEndWhile p cs = []
    · rw [dropEndWhile_cons_of_eq_nil h]
      by_cases hc : p c <;> simp_all
    · rw [dropEndWhile_cons_of_ne_nil h]
      simp only [cons_ne_nil, mem_cons, forall_eq_or_imp, false_iff, not_and]
      exact fun _ => fun hall => h (ih.2 hall)

/-- A text is what is kept of it, and an end that satisfies the test. -/
theorem exists_eq_dropEndWhile_append (p : Char → Bool) (cs : List Char) :
    ∃ t, cs = dropEndWhile p cs ++ t ∧ ∀ c ∈ t, p c := by
  induction cs with
  | nil => exact ⟨[], rfl, by simp⟩
  | cons c cs ih =>
    obtain ⟨t, ht, hall⟩ := ih
    by_cases h : dropEndWhile p cs = []
    · rw [dropEndWhile_cons_of_eq_nil h]
      split
      · rename_i hc
        rw [h, nil_append] at ht
        exact ⟨c :: t, by rw [← ht]; rfl, by simpa [hc] using hall⟩
      · exact ⟨t, by rw [singleton_append, ht, h, nil_append], hall⟩
    · rw [dropEndWhile_cons_of_ne_nil h]
      exact ⟨t, by rw [cons_append, ← ht], hall⟩

theorem dropEndWhile_isPrefix : dropEndWhile p cs <+: cs := by
  obtain ⟨t, ht, -⟩ := exists_eq_dropEndWhile_append p cs
  exact ⟨t, ht.symm⟩

/-- The last character that is kept fails the test. -/
theorem getLast?_dropEndWhile (h : (dropEndWhile p cs).getLast? = some c) : p c = false := by
  induction cs with
  | nil => cases h
  | cons d cs ih =>
    by_cases hcs : dropEndWhile p cs = []
    · rw [dropEndWhile_cons_of_eq_nil hcs] at h
      split at h
      · cases h
      · rename_i hd
        cases h
        simpa using hd
    · rw [dropEndWhile_cons_of_ne_nil hcs, getLast?_cons_of_ne_nil hcs] at h
      exact ih h

/-! ## Trimming -/

/-- No white space at either end. -/
structure Trimmed (cs : List Char) : Prop where
  head : ∀ c, cs.head? = some c → isBlank c = false
  last : ∀ c, cs.getLast? = some c → isBlank c = false

theorem trimStart_of_head (h : ∀ c, cs.head? = some c → isBlank c = false) : trimStart cs = cs := by
  cases cs with
  | nil => rfl
  | cons c cs => exact dropWhile_cons_of_neg (by simp [h c rfl])

theorem trimEnd_of_getLast (h : ∀ c, cs.getLast? = some c → isBlank c = false) : trimEnd cs = cs :=
  dropEndWhile_of_getLast h

theorem head?_trimStart (h : (trimStart cs).head? = some c) : isBlank c = false := by
  have hhead := head?_dropWhile_not isBlank cs
  rw [trimStart] at h
  simpa [h] using hhead

theorem getLast?_trimEnd (h : (trimEnd cs).getLast? = some c) : isBlank c = false :=
  getLast?_dropEndWhile h

theorem trimStart_append_of_all (h : ∀ c ∈ a, isBlank c) :
    trimStart (a ++ b) = trimStart b :=
  dropWhile_append_of_pos h

theorem trimEnd_append_of_all (h : ∀ c ∈ b, isBlank c) : trimEnd (a ++ b) = trimEnd a :=
  dropEndWhile_append_of_eq_nil (dropEndWhile_eq_nil.2 h)

/-- A beginning of a text begins with the same character. -/
theorem head?_of_isPrefix (h : a <+: b) (hc : a.head? = some c) : b.head? = some c := by
  obtain ⟨t, rfl⟩ := h
  cases a with
  | nil => cases hc
  | cons d a => exact hc

/-- An end of a text ends with the same character. -/
theorem getLast?_of_suffix (h : a <:+ b) (hc : a.getLast? = some c) : b.getLast? = some c := by
  obtain ⟨t, rfl⟩ := h
  rw [getLast?_append, hc]
  rfl

theorem trimEnd_trimEnd : trimEnd (trimEnd cs) = trimEnd cs :=
  trimEnd_of_getLast fun _ => getLast?_trimEnd

theorem trimStart_trimStart : trimStart (trimStart cs) = trimStart cs :=
  trimStart_of_head fun _ => head?_trimStart

namespace Trimmed

theorem trim_eq (h : Trimmed cs) : trim cs = cs := by
  rw [trim, trimStart_of_head h.head, trimEnd_of_getLast h.last]

theorem nil : Trimmed [] := ⟨by simp, by simp⟩

/-- Cutting at the end keeps the beginning. -/
theorem of_trimEnd (h : ∀ c, cs.head? = some c → isBlank c = false) : Trimmed (trimEnd cs) :=
  ⟨fun c hc => h c (head?_of_isPrefix dropEndWhile_isPrefix hc), fun _ => getLast?_trimEnd⟩

end Trimmed

/-- **Trimming trims.** -/
theorem trimmed_trim : Trimmed (trim cs) :=
  .of_trimEnd fun _ => head?_trimStart

theorem trim_append_left (h : ∀ c ∈ a, isBlank c) : trim (a ++ b) = trim b := by
  rw [trim, trimStart_append_of_all h, trim]

/-- White space around a text plays no part in trimming it. -/
theorem trim_append_of_all (ha : ∀ c ∈ a, isBlank c) (hb : ∀ c ∈ b, isBlank c) :
    trim (a ++ cs ++ b) = trim cs := by
  have hbs : trimStart b = [] := by simpa [trimStart] using hb
  rw [append_assoc, trim, trimStart_append_of_all ha, trimStart, dropWhile_append]
  split
  · rename_i hnil
    have hcs : trimStart cs = [] := isEmpty_iff.1 hnil
    rw [← trimStart, hbs, trim, hcs]
  · rw [trimEnd_append_of_all hb, trim, trimStart]

end RobotSource.Text
