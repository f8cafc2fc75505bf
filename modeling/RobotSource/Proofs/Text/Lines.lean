import Mathlib.Data.List.TakeWhile
import Mathlib.Tactic.Common
import RobotSource.Text.Lines
/-!
# Texts as lines

A text is some lines that each end with a line feed, and a last one that does not
(`exists_splitLines_eq`), and it is split into just these (`splitLines_lines`). Writing a line feed
for every pair of carriage return and line feed goes line by line as well (`unifyBreaks_lines`).

Breaks of both kinds may stand in one text. `Opens s lines t` says that `t` begins with the lines,
each with a break behind it, and goes on with `s`.
-/

namespace RobotSource.Text

open List

variable {l t cs : List Char} {init : List (List Char)} {last : List Char} {c : Char}
variable {x : Char}
variable {lines : List (List Char)}

/-! ## Splitting -/

/-- A text without line feeds is one line with what follows. -/
theorem splitLines_append {u v : List Char} (h : '\n' ∉ u)
    (hv : splitLines v = l :: lines) : splitLines (u ++ v) = (u ++ l) :: lines := by
  induction u with
  | nil => exact hv
  | cons c u ih =>
    have hc : c ≠ '\n' := fun heq => h (heq ▸ mem_cons_self)
    rw [cons_append, splitLines, if_neg hc, ih (not_mem_of_not_mem_cons h)]
    rfl

theorem splitLines_of_notMem (h : '\n' ∉ l) : splitLines l = [l] := by
  simpa using splitLines_append (v := []) h rfl

theorem splitLines_append_newline (h : '\n' ∉ l) :
    splitLines (l ++ '\n' :: t) = l :: splitLines t := by
  simpa using splitLines_append (v := '\n' :: t) h rfl

theorem exists_splitLines_append {u v : List Char} (h : '\n' ∉ u) :
    ∃ rest, splitLines (u ++ v) = (u ++ v.takeWhile (· != '\n')) :: rest := by
  have hline : ∃ rest, splitLines v = v.takeWhile (· != '\n') :: rest := by
    induction v with
    | nil => exact ⟨[], rfl⟩
    | cons c v ih =>
      obtain ⟨rest, hrest⟩ := ih
      by_cases hc : c = '\n'
      · exact ⟨splitLines v, by simp [splitLines, hc]⟩
      · exact ⟨rest, by simp [splitLines, hc, hrest]⟩
  exact hline.imp fun _ => splitLines_append h

theorem splitLines_flatMap_append (h : ∀ l ∈ init, '\n' ∉ l) (t : List Char) :
    splitLines (init.flatMap (· ++ ['\n']) ++ t) = init ++ splitLines t := by
  induction init with
  | nil => rfl
  | cons l init ih =>
    obtain ⟨hl, hinit⟩ := forall_mem_cons.1 h
    rw [flatMap_cons, append_assoc, append_assoc, singleton_append,
      splitLines_append_newline hl, ih hinit, cons_append]

/-- **Lines are split apart again.** -/
theorem splitLines_lines (hinit : ∀ l ∈ init, '\n' ∉ l) (hlast : '\n' ∉ last) :
    splitLines (init.flatMap (· ++ ['\n']) ++ last) = init ++ [last] := by
  rw [splitLines_flatMap_append hinit, splitLines_of_notMem hlast]

/-- **Every text is made of lines.** -/
theorem exists_splitLines_eq (cs : List Char) :
    ∃ (init : List (List Char)) (last : List Char),
      cs = init.flatMap (· ++ ['\n']) ++ last ∧ (∀ l ∈ init, '\n' ∉ l) ∧ '\n' ∉ last ∧
        splitLines cs = init ++ [last] := by
  suffices h : ∃ (init : List (List Char)) (last : List Char),
      cs = init.flatMap (· ++ ['\n']) ++ last ∧ (∀ l ∈ init, '\n' ∉ l) ∧ '\n' ∉ last by
    obtain ⟨init, last, rfl, hinit, hlast⟩ := h
    exact ⟨init, last, rfl, hinit, hlast, splitLines_lines hinit hlast⟩
  induction cs with
  | nil => exact ⟨[], [], rfl, by simp, by simp⟩
  | cons c cs ih =>
    obtain ⟨init, last, rfl, hinit, hlast⟩ := ih
    by_cases hc : c = '\n'
    · exact ⟨[] :: init, last, by simp [hc], by simpa using hinit, hlast⟩
    · cases init with
      | nil => exact ⟨[], c :: last, rfl, by simp, by simp [hlast, Ne.symm hc]⟩
      | cons l init =>
        obtain ⟨hl, hinit⟩ := forall_mem_cons.1 hinit
        refine ⟨(c :: l) :: init, last, by simp, forall_mem_cons.2 ⟨?_, hinit⟩, hlast⟩
        simp [hl, Ne.symm hc]

theorem splitLines_ne_nil (t : List Char) : splitLines t ≠ [] := by
  obtain ⟨init, last, -, -, -, hsplit⟩ := exists_splitLines_eq t
  simp [hsplit]

theorem notMem_of_mem_splitLines (h : l ∈ splitLines cs) : '\n' ∉ l := by
  obtain ⟨init, last, -, hinit, hlast, hsplit⟩ := exists_splitLines_eq cs
  rw [hsplit, mem_append, mem_singleton] at h
  rcases h with h | rfl
  · exact hinit l h
  · exact hlast

theorem mem_of_mem_splitLines (h : l ∈ splitLines cs) (hx : x ∈ l) : x ∈ cs := by
  obtain ⟨init, last, hcs, -, -, hsplit⟩ := exists_splitLines_eq cs
  rw [hsplit, mem_append, mem_singleton] at h
  rw [hcs, mem_append, mem_flatMap]
  rcases h with h | rfl
  · exact .inl ⟨l, h, mem_append_left _ hx⟩
  · exact .inr hx

theorem joinLines_cons (h : lines ≠ []) (separator l : List Char) :
    joinLines separator (l :: lines) = l ++ (separator ++ joinLines separator lines) := by
  rw [joinLines.eq_3 _ _ _ h, append_assoc]

/-- Joining puts the separator behind every line but the last. -/
theorem joinLines_concat (separator : List Char) :
    joinLines separator (init ++ [last]) = init.flatMap (· ++ separator) ++ last := by
  induction init with
  | nil => rfl
  | cons l init ih =>
    rw [cons_append, joinLines_cons (by simp), ih, flatMap_cons]
    simp only [append_assoc]

/-- **Lines that were split apart are joined again.** -/
theorem joinLines_splitLines (t : List Char) : joinLines ['\n'] (splitLines t) = t := by
  obtain ⟨init, last, ht, -, -, hsplit⟩ := exists_splitLines_eq t
  rw [hsplit, joinLines_concat, ht]

theorem joinLines_append_cons (separator u l : List Char) (lines : List (List Char)) :
    joinLines separator ((u ++ l) :: lines) = u ++ joinLines separator (l :: lines) := by
  cases lines with
  | nil => rfl
  | cons next lines => simp only [joinLines, append_assoc]

theorem mem_joinLines {separator : List Char}
    (h : x ∈ joinLines separator lines) : x ∈ separator ∨ ∃ l ∈ lines, x ∈ l := by
  fun_induction joinLines separator lines with
  | case1 => cases h
  | case2 line => exact .inr ⟨line, mem_cons_self, h⟩
  | case3 line lines _ ih =>
    rcases mem_append.1 h with h | h
    · rcases mem_append.1 h with h | h
      · exact .inr ⟨line, mem_cons_self, h⟩
      · exact .inl h
    · exact (ih h).imp_right fun ⟨l, hl, hx⟩ => ⟨l, mem_cons_of_mem _ hl, hx⟩

/-! ## Line breaks -/

theorem unifyBreaks_cons (h : c = '\r' → cs.head? ≠ some '\n') :
    unifyBreaks (c :: cs) = c :: unifyBreaks cs := by
  rw [unifyBreaks.eq_3]
  rintro rest rfl rfl
  exact h rfl rfl

theorem mem_of_mem_unifyBreaks (h : x ∈ unifyBreaks cs) : x ∈ cs := by
  fun_induction unifyBreaks cs with
  | case1 => exact h
  | case2 cs ih =>
    rcases mem_cons.1 h with rfl | h
    · simp
    · simp [ih h]
  | case3 c cs _ ih =>
    rcases mem_cons.1 h with rfl | h
    · exact mem_cons_self
    · exact mem_cons_of_mem _ (ih h)

theorem unifyBreaks_of_notMem (h : '\n' ∉ l) : unifyBreaks l = l := by
  induction l with
  | nil => rfl
  | cons c l ih =>
    have hl : '\n' ∉ l := not_mem_of_not_mem_cons h
    rw [unifyBreaks_cons fun _ hhead => hl (mem_of_mem_head? hhead), ih hl]

/-- The carriage return of a pair is the last one before the line feed. -/
theorem unifyBreaks_append_pair (h : '\n' ∉ l) :
    unifyBreaks (l ++ '\r' :: '\n' :: t) = l ++ '\n' :: unifyBreaks t := by
  induction l with
  | nil => rfl
  | cons c l ih =>
    have hl : '\n' ∉ l := not_mem_of_not_mem_cons h
    rw [cons_append, unifyBreaks_cons, ih hl, cons_append]
    intro _ hhead
    cases l with
    | nil => simp at hhead
    | cons d l => exact hl (mem_of_mem_head? hhead)

/-- What has no carriage return is left as it is. -/
theorem unifyBreaks_append (h : '\r' ∉ l) : unifyBreaks (l ++ t) = l ++ unifyBreaks t := by
  induction l with
  | nil => rfl
  | cons c l ih =>
    obtain ⟨hc, hl⟩ := not_or.1 (mt mem_cons.2 h)
    rw [cons_append, unifyBreaks_cons fun hreturn => absurd hreturn.symm hc, ih hl,
      cons_append]

/-- **Pairs of breaks behind lines become line feeds behind lines.** -/
theorem unifyBreaks_lines (hinit : ∀ l ∈ init, '\n' ∉ l) (hlast : '\n' ∉ last) :
    unifyBreaks (init.flatMap (· ++ ['\r', '\n']) ++ last) =
      init.flatMap (· ++ ['\n']) ++ last := by
  induction init with
  | nil => exact unifyBreaks_of_notMem hlast
  | cons l init ih =>
    obtain ⟨hl, hinit⟩ := forall_mem_cons.1 hinit
    simp only [flatMap_cons, append_assoc, cons_append, nil_append]
    rw [unifyBreaks_append_pair hl, ih hinit]

/-- A line feed by itself stays. -/
theorem unifyBreaks_append_newline (h : '\n' ∉ l) (hreturn : l.getLast? ≠ some '\r') :
    unifyBreaks (l ++ '\n' :: t) = l ++ '\n' :: unifyBreaks t := by
  induction l with
  | nil => rfl
  | cons c l ih =>
    have hl : '\n' ∉ l := not_mem_of_not_mem_cons h
    have hnext : c = '\r' → (l ++ '\n' :: t).head? ≠ some '\n' := by
      rintro rfl hhead
      cases l with
      | nil => simp at hreturn
      | cons d l => exact hl (mem_of_mem_head? hhead)
    have hrest : l.getLast? ≠ some '\r' := by
      intro hlast
      cases l with
      | nil => cases hlast
      | cons d l => exact hreturn (getLast?_cons_cons.trans hlast)
    rw [cons_append, unifyBreaks_cons hnext, ih hl hrest, cons_append]

/-- The last character stays. -/
theorem getLast?_unifyBreaks (cs : List Char) : (unifyBreaks cs).getLast? = cs.getLast? := by
  fun_induction unifyBreaks cs with
  | case1 => rfl
  | case2 cs ih =>
    rw [getLast?_cons, getLast?_cons, ih, getLast?_cons]
    cases cs.getLast? <;> rfl
  | case3 c cs _ ih => rw [getLast?_cons, getLast?_cons, ih]

/-! ## Lines at the beginning of a text -/

/-- A line break: a line feed, with or without a carriage return before it. -/
def IsLineBreak (b : List Char) : Prop := b = ['\n'] ∨ b = ['\r', '\n']

/-- A line that can be told from any break behind it. -/
structure ClosedLine (l : List Char) : Prop where
  feedFree : '\n' ∉ l
  last : l.getLast? ≠ some '\r'

/-- The text begins with the lines, each with a break behind it, and goes on with `s`. -/
inductive Opens (s : List Char) : List (List Char) → List Char → Prop
  | nil : Opens s [] s
  | cons {l b t : List Char} {lines : List (List Char)} (hl : ClosedLine l) (hb : IsLineBreak b)
      (h : Opens s lines t) : Opens s (l :: lines) (l ++ (b ++ t))

theorem IsLineBreak.ne_nil {b : List Char} (h : IsLineBreak b) : b ≠ [] := by
  rcases h with rfl | rfl <;> simp

namespace Opens

variable {s : List Char} {lines lines' : List (List Char)}

theorem append {t' : List Char} (h : Opens t' lines t) (h' : Opens s lines' t') :
    Opens s (lines ++ lines') t := by
  induction h with
  | nil => exact h'
  | cons hl hb _ ih => exact .cons hl hb ih

theorem exists_of_append (h : Opens s (lines ++ lines') t) :
    ∃ t', Opens t' lines t ∧ Opens s lines' t' := by
  induction lines generalizing t with
  | nil => exact ⟨t, .nil, h⟩
  | cons l lines ih =>
    cases h with
    | cons hl hb h =>
      obtain ⟨t', hfirst, hrest⟩ := ih h
      exact ⟨t', .cons hl hb hfirst, hrest⟩

/-- What follows the lines is at the end of the text. -/
theorem suffix (h : Opens s lines t) : s <:+ t := by
  induction h with
  | nil => exact suffix_rfl
  | cons _ _ _ ih => exact (ih.trans (suffix_append _ _)).trans (suffix_append _ _)

theorem closedLine (h : Opens s lines t) : ∀ l ∈ lines, ClosedLine l := by
  induction h with
  | nil => simp
  | cons hl _ _ ih => exact forall_mem_cons.2 ⟨hl, ih⟩

/-- **The lines are the first ones of the text.** -/
theorem splitLines_unifyBreaks (h : Opens s lines t) :
    splitLines (unifyBreaks t) = lines ++ splitLines (unifyBreaks s) := by
  induction h with
  | nil => rfl
  | @cons l b t lines hl hb h ih =>
    have hunified : unifyBreaks (l ++ (b ++ t)) = l ++ '\n' :: unifyBreaks t := by
      rcases hb with rfl | rfl
      · exact unifyBreaks_append_newline hl.feedFree hl.last
      · exact unifyBreaks_append_pair hl.feedFree
    rw [hunified, splitLines_append_newline hl.feedFree, ih, cons_append]

/-- Lines that are joined stand at the beginning of the text. -/
theorem of_joinLines {newline rest : List Char} {last : List (List Char)}
    (hnewline : IsLineBreak newline) (hlines : ∀ l ∈ lines, ClosedLine l) (hlast : last ≠ []) :
    Opens (joinLines newline last ++ rest) lines (joinLines newline (lines ++ last) ++ rest) := by
  induction lines with
  | nil => exact .nil
  | cons l lines ih =>
    obtain ⟨hl, hlines⟩ := forall_mem_cons.1 hlines
    have hne : lines ++ last ≠ [] := by simp [hlast]
    rw [cons_append, joinLines_cons hne, append_assoc, append_assoc]
    exact .cons hl hnewline (ih hlines)

end Opens

end RobotSource.Text
