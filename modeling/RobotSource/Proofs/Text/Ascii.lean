import RobotSource.Text.Blank
/-!
# ASCII characters

What holds of the first 128 characters is found by looking at each of them (`of_ascii`). Letters and
digits are among them, and no other character has a case as far as `toLower` and `toUpper` know.
-/

namespace RobotSource.Text

variable {x y : Char}

theorem of_ascii {p : Char → Prop} (h : ∀ n < 128, p (Char.ofNat n)) (hx : x.toNat < 128) : p x := by
  have hp := h x.toNat hx
  rwa [Char.ofNat_toNat] at hp

theorem lt_of_isUpper (h : x.isUpper) : x.toNat < 128 :=
  Nat.lt_of_le_of_lt (UInt32.le_iff_toNat_le.1 (of_decide_eq_true h).2) (by decide)

theorem lt_of_between {a b : Char} (hb : b.toNat < 128)
    (h : (decide (x.val ≥ a.val) && decide (x.val ≤ b.val)) = true) : x.toNat < 128 := by
  simp only [Bool.and_eq_true, decide_eq_true_eq, UInt32.le_iff_toNat_le] at h
  exact Nat.lt_of_le_of_lt h.2 hb

theorem lt_of_isLower (h : x.isLower) : x.toNat < 128 :=
  lt_of_between (a := 'a') (b := 'z') (by decide) h

theorem lt_of_isAlphanum (h : x.isAlphanum) : x.toNat < 128 := by
  rcases Bool.or_eq_true_iff.1 h with h | hdigit
  · exact (Bool.or_eq_true_iff.1 h).elim lt_of_isUpper lt_of_isLower
  · exact lt_of_between (a := '0') (b := '9') (by decide) hdigit

theorem lt_of_isDigit (h : x.isDigit) : x.toNat < 128 :=
  lt_of_isAlphanum (by rw [Char.isAlphanum, h, Bool.or_true])

theorem toLower_of_not_isUpper (h : x.isUpper = false) : x.toLower = x :=
  dif_neg (of_decide_eq_false h)

theorem toUpper_of_not_isLower (h : x.isLower = false) : x.toUpper = x := by
  refine dif_neg fun hx => ?_
  have hlower : x.isLower := Bool.and_eq_true_iff.2 ⟨decide_eq_true hx.1, decide_eq_true hx.2⟩
  rw [h] at hlower
  cases hlower

theorem toLower_lt (h : x.toNat < 128) : x.toLower.toNat < 128 :=
  of_ascii (p := fun x => x.toLower.toNat < 128) (by decide) h

theorem toUpper_lt (h : x.toNat < 128) : x.toUpper.toNat < 128 :=
  of_ascii (p := fun x => x.toUpper.toNat < 128) (by decide) h

theorem lt_of_toLower_lt (h : x.toLower.toNat < 128) : x.toNat < 128 := by
  cases hupper : x.isUpper with
  | true => exact lt_of_isUpper hupper
  | false => rwa [toLower_of_not_isUpper hupper] at h

theorem toUpper_toLower (h : x.toNat < 128) : x.toLower.toUpper = x.toUpper :=
  of_ascii (p := fun x => x.toLower.toUpper = x.toUpper) (by decide) h

theorem eq_or_eq_of_toLower_eq (hy : y.toNat < 128) (h : x.toLower = y) : x = y ∨ x = y.toUpper := by
  subst h
  exact of_ascii (p := fun x => x = x.toLower ∨ x = x.toLower.toUpper) (by decide)
    (lt_of_toLower_lt hy)

/-- A small letter is one of a letter. -/
theorem isAlpha_of_toLower_eq (hx : x.toNat < 128) (hy : y.toNat < 128) (hletter : y.isAlpha)
    (h : x.toLower = y.toLower) : x.isAlpha := by
  have hlower {x : Char} (hx : x.toNat < 128) : x.toLower.isAlpha = x.isAlpha :=
    of_ascii (p := fun x => x.toLower.isAlpha = x.isAlpha) (by decide) hx
  rw [← hlower hx, h, hlower hy, hletter]

/-- Only a letter is the small form of another character. -/
theorem eq_of_toLower_eq (hx : x.isLower = false) (h : y.toLower = x) : y = x := by
  cases hupper : y.isUpper with
  | true =>
    have hlower := of_ascii (p := fun y => y.isUpper = true → y.toLower.isLower = true) (by decide)
      (lt_of_isUpper hupper) hupper
    rw [h, hx] at hlower
    cases hlower
  | false => rw [← h, toLower_of_not_isUpper hupper]

/-- A function of characters that takes every small ASCII letter for its capital does so for all
characters. -/
theorem apply_toUpper {β : Type} {f : Char → β}
    (h : ∀ n < 128, f (Char.ofNat n).toUpper = f (Char.ofNat n)) (x : Char) : f x.toUpper = f x := by
  cases hlower : x.isLower with
  | true => exact of_ascii (p := fun x => f x.toUpper = f x) h (lt_of_isLower hlower)
  | false => rw [toUpper_of_not_isLower hlower]

/-- Only a letter has another capital. -/
theorem toUpper_eq_iff (hx : x.isAlpha = false) (y : Char) : y.toUpper = x ↔ y = x := by
  cases hlower : y.isLower with
  | true =>
    have hletters := of_ascii (p := fun y => y.isLower = true → y.toUpper.isAlpha = true ∧
      y.isAlpha = true) (by decide) (lt_of_isLower hlower) hlower
    grind
  | false => rw [toUpper_of_not_isLower hlower]

end RobotSource.Text
