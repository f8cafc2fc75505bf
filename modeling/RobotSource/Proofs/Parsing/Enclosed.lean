import RobotSource.Proofs.Parsing.Token
/-!
# Texts between two marks

A string or a comment runs up to a closing mark, over characters that no other token contains. It may
therefore run out of the common stretch of two texts. If all that follows the stretch, up to the line
break, is made of delimiters (`Encloses`), no mark closes it there, and it is read alike after all
(`Local.closing`).
-/

namespace RobotSource.Parsing

open Text

variable {α : Type} {stop : Char → Bool} {P : List Char → Prop} {u : List Char} {c : Cursor}

/-- Of a text of the kind `P` a run that passes no line break reaches delimiters only. -/
structure Encloses (stop : Char → Bool) (P : List Char → Prop) : Prop extends Delimits stop P where
  ends : ∀ q s y, q '\n' = false → P s → (s.dropWhile q).head? = some y → stop y = true

/-- A run that no line break is part of stops within the common stretch, at the same place on both
sides, or behind it. -/
theorem Encloses.takeWhile_cases (hstop : Encloses stop P) {q : Char → Bool} (hbreak : q '\n' = false)
    (u : List Char) :
    (∃ a x b, u = a ++ x :: b ∧ ∀ c, Leads P u c → c.rest.takeWhile q = a) ∨
      ∀ c, Leads P u c → ∀ y, (c.drop (c.rest.takeWhile q).length).rest.head? = some y →
        stop y := by
  rcases exists_split_or_all q u with ⟨a, x, b, rfl, ha, hx⟩ | hall
  · refine .inl ⟨a, x, b, rfl, ?_⟩
    rintro c ⟨e, he, -⟩
    rw [he, List.append_assoc, List.takeWhile_append_of_pos ha, List.cons_append,
      List.takeWhile_cons_of_neg (by simp [hx]), List.append_nil]
  · refine .inr ?_
    rintro c ⟨e, he, hend⟩ y hy
    rw [Cursor.rest_drop, drop_length_takeWhile, he, List.dropWhile_append_of_pos hall] at hy
    exact hstop.ends q e y hbreak hend hy

/-- A text up to a closing mark. -/
theorem Local.closing (hstop : Encloses stop P) (q : Char → Bool) (close : Char)
    (hbreak : q '\n' = false) (hclose : stop close = false) :
    Local P (do
      let content ← Parsing.takeWhile q
      let _ ← Parsing.char close
      return content) := by
  intro u c d hcommon
  rcases hstop.takeWhile_cases hbreak u with ⟨a, x, b, rfl, htaken⟩ | hopen
  · have hclosing := (Local.char hstop.toDelimits hclose).bind fun _ => .pure a
    have hbehind := hclosing _ _ _ (hcommon.drop (k := a.length) (by simp))
    simp only [Parser.bind_apply (Parsing.takeWhile q), Parsing.takeWhile, htaken c hcommon.left,
      htaken d hcommon.right]
    exact hbehind.mono (fun _ _ h => .trans (by simp) h) fun _ _ h => h
  · -- The text runs out of the stretch, and nothing closes it there.
    have hfails {c : Cursor} (hc : Leads P u c) :
        (c.drop (c.rest.takeWhile q).length).rest.head? ≠ some close := by
      intro hhead
      rw [hopen c hc close hhead] at hclose
      cases hclose
    simp only [Parser.bind_apply, Parsing.takeWhile, Parsing.char, if_neg (hfails hcommon.left),
      if_neg (hfails hcommon.right)]
    exact .failed

theorem Local.charThat (hstop : Delimits stop P) {what : String} {q : Char → Bool}
    (hq : ∀ x, stop x → q x = false) : Local P (charThat what q) := by
  intro u c d hcommon
  have hread {c : Cursor} (hc : Leads P u c) : (∃ x u', u = x :: u' ∧ q x ∧
      Parsing.charThat what q c = .done x (c.drop 1)) ∨
      u.head?.any q = false ∧ ∃ f, Parsing.charThat what q c = .failed f := by
    obtain ⟨s, hs, hP⟩ := hc
    rw [Parsing.charThat, hs]
    cases u with
    | nil =>
      refine .inr ⟨rfl, ?_⟩
      cases s with
      | nil => exact ⟨_, rfl⟩
      | cons x s =>
        have hx := hq x (hstop.begins x s hP)
        exact ⟨_, by rw [List.nil_append]; exact if_neg (by simp [hx])⟩
    | cons x u =>
      cases hx : q x with
      | true => exact .inl ⟨x, u, rfl, hx, if_pos hx⟩
      | false => exact .inr ⟨hx, _, if_neg (by simp [hx])⟩
  rcases hread hcommon.left with ⟨x, u', rfl, hx, hc⟩ | ⟨hnone, f, hc⟩
  · rcases hread hcommon.right with ⟨y, w, heq, -, hd⟩ | ⟨hnone, -⟩
    · cases heq
      rw [hc, hd]
      exact .done rfl ⟨1, by simp, rfl, rfl⟩
    · simp [hx] at hnone
  · rcases hread hcommon.right with ⟨y, w, rfl, hy, -⟩ | ⟨-, g, hd⟩
    · simp [hy] at hnone
    · rw [hc, hd]
      exact .failed

end RobotSource.Parsing
