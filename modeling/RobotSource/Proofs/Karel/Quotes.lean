import Mathlib.Data.List.DropRight
import RobotSource.Proofs.Karel.CodeEnd
import RobotSource.Proofs.Parsing.Returns
/-!
# Quotes and remarks

The scan for the end of the code goes by quotes and dashes alone. `quotedAfter` says whether it
takes the place behind a text to be inside a string. Where it does not, a remark at the end of the
line makes no difference, whatever the remark says (`endOfCode_remark`), and white space goes on
through it (`blankLength_remark`).

A line feed makes the scan start afresh, tokens leave it outside of strings (`quotedAfter_spelled`),
and so does white space with its comments (`exists_quotedAfter_blank`). Only a directive may hold a
single quote.

The end of the code can be found from the other end as well: white space and the comment of the last
line are cut off as long as there are any (`stripComments`), and what is left ends where the scan
says (`endOfCode_eq`).
-/

namespace RobotSource.Karel

open Grammar Parsing Text List

variable {t u v w s note : List Char} {x : Char} {quoted comment : Bool} {here last : Position}

/-! ## Lookahead -/

theorem head?_append_eq_iff (ht : t.head? ≠ some x) :
    (u ++ t).head? = some x ↔ u.head? = some x := by
  cases u with
  | nil => simp [ht]
  | cons y u => rfl

/-- The scan goes on behind a text from where the text has led it. Only a dash has to be seen
together with what follows it. -/
theorem Scan.past_append (ht : t.head? ≠ some '-') (s : Scan) (u : List Char) :
    s.past (u ++ t) = (s.past u).past t := by
  induction u generalizing s with
  | nil => rfl
  | cons x u ih =>
    simp only [cons_append, past, ih, head?_append_eq_iff ht, apply_ite (past · t)]

/-! ## Inside a string -/

/-- Whether the scan for the end of the code takes the place behind the text to be inside a string.
`quoted` and `comment` say whether the text begins inside a string or a comment. -/
def quotedAfter (quoted comment : Bool) : List Char → Bool
  | [] => quoted
  | x :: t =>
    if x = '\n' then quotedAfter false false t
    else if comment then quotedAfter quoted true t
    else if !quoted ∧ x = '-' ∧ t.head? = some '-' then quotedAfter false true t
    else quotedAfter (quoted != (x == '\'')) false t

theorem quoted_past (quoted comment : Bool) (here last : Position) (t : List Char) :
    (Scan.past ⟨quoted, comment, here, last⟩ t).quoted = quotedAfter quoted comment t := by
  induction t generalizing quoted comment here last with
  | nil => rfl
  | cons x t ih => simp only [Scan.past, quotedAfter, ih, apply_ite Scan.quoted]

/-- A line feed makes the scan forget what came before. -/
theorem quotedAfter_append_of_mem (h : '\n' ∈ v) (u : List Char) :
    quotedAfter quoted comment (u ++ v) = quotedAfter false false v := by
  have hfeed {quoted comment : Bool} (u t : List Char) :
      quotedAfter quoted comment (u ++ '\n' :: t) = quotedAfter false false t := by
    rw [← quoted_past quoted comment .first .first, Scan.past_append (by simp), Scan.past,
      if_pos rfl, quoted_past]
  obtain ⟨w, t, rfl⟩ := append_of_mem h
  rw [← append_assoc, hfeed, hfeed]

/-- Two dashes open a comment. -/
theorem quotedAfter_dashes (hu : u.head? = some '-') : quotedAfter false false ('-' :: u) =
    quotedAfter false true (u.dropWhile fun y => !isBreak y) := by
  obtain ⟨w, rfl⟩ := head?_eq_some_iff.1 hu
  have hscan := Scan.past_dashes w (('-' :: w).dropWhile fun y => !isBreak y) .first .first
  rw [cons_append, takeWhile_append_dropWhile] at hscan
  rw [← quoted_past false false .first .first, hscan, quoted_past]

/-- Of a line that is followed by another one nothing remains. -/
theorem quotedAfter_line_of_mem (hu : '\n' ∈ u) : quotedAfter quoted comment (x :: u) =
    quotedAfter false false (u.dropWhile fun y => !isBreak y) := by
  rw [← quotedAfter_append_of_mem (mem_dropWhile_not_isBreak hu)
    (x :: u.takeWhile fun y => !isBreak y), cons_append, takeWhile_append_dropWhile]

theorem quotedAfter_quiet (h : Quiet v u) :
    quotedAfter false false (u ++ v) = quotedAfter false false v := by
  by_cases hne : u = []
  · rw [hne, nil_append]
  · rw [← quoted_past false false .first .first, Scan.past_quiet h hne, quoted_past]

theorem quotedAfter_spaces (hu : ∀ x ∈ u, isSpaceOrTab x) (v : List Char) :
    quotedAfter false false (u ++ v) = quotedAfter false false v := by
  induction u with
  | nil => rfl
  | cons x u ih =>
    obtain ⟨hx, hu⟩ := forall_mem_cons.1 hu
    simp only [isSpaceOrTab, Bool.or_eq_true, beq_iff_eq] at hx
    rw [cons_append, ← ih hu]
    rcases hx with rfl | rfl <;> rfl

/-- A string that nothing closes is open at the end. -/
theorem quotedAfter_open (hu : ∀ x ∈ u, x ≠ '\'' ∧ x ≠ '\n') : quotedAfter true false u := by
  obtain ⟨_, hopen⟩ := Scan.exists_past_open hu .first .first []
  rw [← append_nil u, ← quoted_past true false .first .first, hopen, Scan.past]

/-- Behind a whole token the scan is where it was before it. -/
theorem quotedAfter_spelled (h : Spelled u) (hdash : u = ['-'] → v.head? ≠ some '-') :
    quotedAfter false false (u ++ v) = quotedAfter false false v := by
  rw [← quoted_past false false .first .first, Scan.past_spelled h hdash, quoted_past]

/-- Over a blank the scan goes on, and a comment with it up to the line feed. -/
theorem exists_quotedAfter_blank (hx : isSpacing x) (hpaired : returnsPaired (x :: u))
    (hcomment : comment → isBreak x) :
    ∃ comment', (comment' = true → u.head? = some '\n') ∧
      quotedAfter false comment (x :: u) = quotedAfter false comment' u := by
  obtain ⟨comment', hfeed, hscan⟩ := Scan.exists_past_blank hx hpaired hcomment .first .first u
  exact ⟨comment', hfeed, by rw [← quoted_past false comment .first .first, hscan, quoted_past]⟩

/-! ## Remarks -/

/-- A comment at the end of a line, divided from the line by a space. -/
def remark (note : List Char) : List Char := ' ' :: '-' :: '-' :: note

/-- At a line break a comment is over, and a carriage return before the line feed is white space. -/
theorem Scan.past_lineBreak {b : List Char} (hb : IsLineBreak b) (t : List Char) :
    past ⟨false, comment, here, last⟩ (b ++ t) = past ⟨false, false, ⟨here.line + 1, 1⟩, last⟩ t := by
  rcases hb with rfl | rfl
  · rfl
  · cases comment <;> rfl

/-- Behind a remark the scan is in a comment. -/
theorem Scan.past_remark (hnote : '\n' ∉ note) (t : List Char) :
    past ⟨false, comment, here, last⟩ (remark note ++ t) =
      past ⟨false, true, here.afterAll (remark note), last⟩ t := by
  cases comment with
  | true => exact past_comment (by simpa [remark] using hnote) false here last t
  | false => exact past_comment hnote false _ last t

theorem line_afterAll_remark (hnote : '\n' ∉ note) :
    (here.afterAll (remark note)).line = here.line := by
  rw [Position.afterAll_of_notMem (by simpa [remark] using hnote)]

/-- The scan takes no notice of a remark at the end of a line. -/
theorem Scan.last_past_remark_append (hnote : '\n' ∉ note) (hs : LineOver s) :
    (past ⟨false, comment, here, last⟩ (remark note ++ s)).last =
      (past ⟨false, comment, here, last⟩ s).last := by
  rw [past_remark hnote]
  rcases hs with rfl | ⟨b, t, hb, rfl⟩
  · rfl
  · rw [past_lineBreak hb, past_lineBreak hb, line_afterAll_remark hnote]

theorem head?_ne_dash_of_lineOver (h : LineOver s) : s.head? ≠ some '-' := by
  rcases h with rfl | ⟨b, t, rfl | rfl, rfl⟩ <;> simp

/-- Behind a text that leaves no string open. -/
theorem exists_endOfCode (hu : quotedAfter false false u = false) (start : Position) :
    ∃ comment here last, ∀ t, t.head? ≠ some '-' → endOfCode start (u ++ t) =
      (Scan.past ⟨false, comment, here, last⟩ t).last := by
  have hscan (t : List Char) (ht : t.head? ≠ some '-') : endOfCode start (u ++ t) =
      ((Scan.past ⟨false, false, start, start⟩ u).past t).last := by
    rw [endOfCode, scanCode_eq, Scan.past_append ht]
  rw [← quoted_past false false start start] at hu
  generalize Scan.past _ u = s at hu hscan
  obtain ⟨_, comment, here, last⟩ := s
  cases hu
  exact ⟨comment, here, last, hscan⟩

/-- **A remark does not move the end of the code.** -/
theorem endOfCode_remark (hu : quotedAfter false false u = false) (hnote : '\n' ∉ note)
    (hs : LineOver s) (start : Position) :
    endOfCode start (u ++ (remark note ++ s)) = endOfCode start (u ++ s) := by
  obtain ⟨comment, here, last, hscan⟩ := exists_endOfCode hu start
  rw [hscan _ (by simp [remark]), hscan _ (head?_ne_dash_of_lineOver hs),
    Scan.last_past_remark_append hnote hs]

/-- Nor does the space before it. -/
theorem endOfCode_space (hu : quotedAfter false false u = false) (start : Position) :
    endOfCode start (u ++ [' ']) = endOfCode start u := by
  obtain ⟨comment, here, last, hscan⟩ := exists_endOfCode hu start
  have hnil := hscan [] (by simp)
  rw [append_nil] at hnil
  rw [hscan _ (by simp), hnil]
  cases comment <;> rfl

/-! ## White space -/

/-- Where white space ends with which a text begins, if the scan is outside of strings there. -/
inductive BlankEnd (skipping comment : Bool) (u : List Char) : Prop
  /-- within the text, at a place that the scan takes for what it is -/
  | within (v w : List Char) (split : u = v ++ w) (ne_nil : w ≠ [])
      (scan : quotedAfter false comment u = quotedAfter false false w)
      (length : ∀ t, t.head? ≠ some '-' → blankLength skipping (u ++ t) = v.length)
  /-- behind the text, if at all -/
  | through (skipping' : Bool) (length : ∀ t, t.head? ≠ some '-' →
      blankLength skipping (u ++ t) = u.length + blankLength skipping' t)

/-- White space goes on over one more character, and so does the scan. -/
theorem BlankEnd.cons {skipping skipping' comment' : Bool} (h : BlankEnd skipping' comment' u)
    (hscan : quotedAfter false comment (x :: u) = quotedAfter false comment' u)
    (hblank : ∀ t, t.head? ≠ some '-' →
      blankLength skipping (x :: (u ++ t)) = blankLength skipping' (u ++ t) + 1) :
    BlankEnd skipping comment (x :: u) := by
  cases h with
  | within v w split ne_nil scan length =>
    refine .within (x :: v) w (by rw [split, cons_append]) ne_nil (hscan.trans scan)
      fun t ht => ?_
    rw [cons_append, hblank t ht, length t ht, length_cons]
  | through skipping'' length =>
    refine .through skipping'' fun t ht => ?_
    rw [cons_append, hblank t ht, length t ht, length_cons]
    omega

/-- White space ends within the text or behind it. For the scan a comment is over with the line feed
only, and so it may still be in one where white space is already back at the line break. -/
theorem blankEnd {skipping : Bool} (hpaired : returnsPaired u)
    (hskip : skipping → comment)
    (hbreak : comment → skipping = false → u.head? = some '\n') :
    BlankEnd skipping comment u := by
  induction u generalizing comment skipping with
  | nil => exact .through skipping fun t _ => by simp
  | cons x u ih =>
    rw [returnsPaired, Bool.and_eq_true] at hpaired
    have hcode : BlankEnd false false u := ih hpaired.2 (by simp) (by simp)
    have hremark : BlankEnd true true u := ih hpaired.2 (by simp) (by simp)
    by_cases hfeed : x = '\n'
    · refine hcode.cons (by rw [quotedAfter, if_pos hfeed]) fun t _ => ?_
      cases skipping <;> simp [blankLength, hfeed, isBreak, isSpacing]
    cases skipping with
    | true =>
      obtain rfl := hskip rfl
      have hscan : quotedAfter false true (x :: u) = quotedAfter false true u := by
        rw [quotedAfter, if_neg hfeed, if_pos rfl]
      by_cases hreturn : x = '\r'
      · have hfeed' : u.head? = some '\n' := by simpa [hreturn] using hpaired.1
        have hpair : BlankEnd false true u := ih hpaired.2 (by simp) fun _ _ => hfeed'
        exact hpair.cons hscan fun t _ => by simp [blankLength, hreturn, isBreak]
      · exact hremark.cons hscan fun t _ => by simp [blankLength, hfeed, hreturn, isBreak]
    | false =>
      have hcomment : comment = false := by
        refine Bool.eq_false_iff.2 fun htrue => hfeed ?_
        simpa using hbreak htrue rfl
      subst hcomment
      by_cases hspacing : isSpacing x
      · refine hcode.cons ?_ fun t _ => by simp [blankLength, hspacing]
        obtain ⟨hdash, hquote⟩ := no_mark_of_isSpacing hspacing
        simp [quotedAfter, hdash, hquote]
      by_cases hdashes : x = '-' ∧ u.head? = some '-'
      · refine hremark.cons (by simp [quotedAfter, hdashes]) fun t ht => ?_
        have hdashes' : x = '-' ∧ (u ++ t).head? = some '-' := by rwa [head?_append_eq_iff ht]
        rw [blankLength, if_neg Bool.false_ne_true, if_neg hspacing, if_pos hdashes']
      · refine .within [] (x :: u) rfl (by simp) rfl fun t ht => ?_
        have hdashes' : ¬ (x = '-' ∧ (u ++ t).head? = some '-') := by rwa [head?_append_eq_iff ht]
        rw [cons_append, blankLength, if_neg Bool.false_ne_true, if_neg hspacing,
          if_neg hdashes', length_nil]

theorem blankLength_lineBreak {b : List Char} (hb : IsLineBreak b) (t : List Char) :
    blankLength comment (b ++ t) = b.length + blankLength false t := by
  rcases hb with rfl | rfl <;> cases comment <;>
    simp [blankLength, isBreak, isSpacing] <;> omega

theorem blankLength_true_append (hu : ∀ y ∈ u, isBreak y = false) (t : List Char) :
    blankLength true (u ++ t) = u.length + blankLength true t := by
  induction u with
  | nil => simp
  | cons y u ih =>
    obtain ⟨hy, hu⟩ := forall_mem_cons.1 hu
    rw [cons_append, blankLength, if_pos rfl, if_neg (by simp [hy]), ih hu,
      length_cons]
    omega

/-- White space goes on through a comment. -/
theorem blankLength_dashes (hnote : ∀ y ∈ note, isBreak y = false) (t : List Char) :
    blankLength comment ('-' :: '-' :: note ++ t) =
      ('-' :: '-' :: note).length + blankLength true t := by
  have hcomment : ∀ y ∈ '-' :: note, isBreak y = false := forall_mem_cons.2 ⟨rfl, hnote⟩
  have hopen : blankLength comment ('-' :: '-' :: note ++ t) =
      blankLength true ('-' :: note ++ t) + 1 := by
    cases comment <;> rfl
  rw [hopen, blankLength_true_append hcomment]
  simp only [length_cons]
  omega

/-- And through the space before it. -/
theorem blankLength_remark (hnote : ∀ y ∈ note, isBreak y = false) (t : List Char) :
    blankLength comment (remark note ++ t) =
      (remark note).length + blankLength true t := by
  have hspace : blankLength comment (remark note ++ t) =
      blankLength comment ('-' :: '-' :: note ++ t) + 1 := by
    cases comment <;> rfl
  rw [hspace, blankLength_dashes hnote]
  simp only [remark, length_cons]
  omega

/-! ## Stripping comments -/

/-- Where the comment of a line begins; `quoted` says whether the line begins inside a string. -/
def commentStart? (quoted : Bool) : List Char → Option Nat
  | [] => none
  | x :: t =>
    if !quoted ∧ x = '-' ∧ t.head? = some '-' then some 0
    else (commentStart? (quoted != (x == '\'')) t).map (· + 1)

/-- The text up to the comment of its last line, if that has one. -/
def cutComment? (text : List Char) : Option (List Char) :=
  (commentStart? false (text.rtakeWhile (· != '\n'))).map fun n =>
    text.rdropWhile (· != '\n') ++ (text.rtakeWhile (· != '\n')).take n

theorem commentStart?_lt {n : Nat} (h : commentStart? quoted t = some n) : n < t.length := by
  induction t generalizing quoted n with
  | nil => cases h
  | cons x t ih =>
    rw [commentStart?] at h
    split at h
    · cases h
      exact Nat.zero_lt_succ _
    · obtain ⟨m, hm, rfl⟩ := Option.map_eq_some_iff.1 h
      exact Nat.succ_lt_succ (ih hm)

theorem length_lt_of_cutComment? (h : cutComment? t = some u) : u.length < t.length := by
  obtain ⟨n, hn, rfl⟩ := Option.map_eq_some_iff.1 h
  have hsplit := congrArg length (rdropWhile_append_rtakeWhile (p := (· != '\n')) (l := t))
  have hlt := commentStart?_lt hn
  rw [length_append] at hsplit ⊢
  rw [length_take]
  omega

/-- The text without the white space and the comments at its end: it is trimmed, and cut off before
the comment of its last line, as long as that has one. -/
def stripComments (text : List Char) : List Char :=
  match _h : cutComment? (trimEnd text) with
  | none => trimEnd text
  | some code => stripComments code
termination_by text.length
decreasing_by exact (length_lt_of_cutComment? _h).trans_le dropEndWhile_isPrefix.length_le

namespace Scan

theorem here_past (s : Scan) (u : List Char) : (s.past u).here = s.here.afterAll u := by
  induction u generalizing s with
  | nil => rfl
  | cons x u ih => simp only [past, ih, apply_ite Scan.here, ite_self, Position.afterAll_cons]

theorem last_past_blanks (hu : ∀ x ∈ u, isBlank x) (s : Scan) : (s.past u).last = s.last := by
  induction u generalizing s with
  | nil => rfl
  | cons x u ih =>
    obtain ⟨hx, hu⟩ := forall_mem_cons.1 hu
    simp only [past, apply_ite Scan.last, ih hu, hx, if_true, ite_self]

/-- The comment of a line is no code. -/
theorem last_past_take {n : Nat} (ht : '\n' ∉ t) (h : commentStart? quoted t = some n) :
    (past ⟨quoted, false, here, last⟩ (t.take n)).last =
      (past ⟨quoted, false, here, last⟩ t).last := by
  induction t generalizing quoted here last n with
  | nil => cases h
  | cons x t ih =>
    rw [mem_cons, not_or] at ht
    have hx : x ≠ '\n' := Ne.symm ht.1
    rw [commentStart?] at h
    split at h
    · rename_i hdashes
      cases h
      -- what follows is the comment
      have hcomment := past_comment ht.2 false (here.after x) last []
      rw [append_nil] at hcomment
      rw [take_zero, past, past, if_neg hx, if_neg Bool.false_ne_true, if_pos hdashes, hcomment,
        past]
    · rename_i hdashes
      obtain ⟨m, hm, rfl⟩ := Option.map_eq_some_iff.1 h
      have hdashes' : ¬ ((!quoted) = true ∧ x = '-' ∧ (t.take m).head? = some '-') := by
        rintro ⟨hquoted, hdash, hhead⟩
        exact hdashes ⟨hquoted, hdash, by rw [← take_append_drop m t, head?_append, hhead]; rfl⟩
      rw [take_succ_cons, past, past]
      simp only [if_neg hx, Bool.false_eq_true, if_false, if_neg hdashes, if_neg hdashes']
      exact ih ht.2 hm

/-- A line without a comment is code up to its last character, if that is not blank. -/
theorem last_past_concat (ht : '\n' ∉ t ++ [x]) (h : commentStart? quoted (t ++ [x]) = none)
    (hx : isBlank x = false) :
    (past ⟨quoted, false, here, last⟩ (t ++ [x])).last = here.afterAll (t ++ [x]) := by
  induction t generalizing quoted here last with
  | nil =>
    have hfeed : x ≠ '\n' := by simpa [eq_comm] using ht
    simp [past, hfeed, hx]
  | cons y t ih =>
    rw [cons_append, mem_cons, not_or] at ht
    rw [cons_append, commentStart?] at h
    split at h
    · cases h
    · rename_i hdashes
      rw [cons_append, past]
      simp only [if_neg (Ne.symm ht.1), Bool.false_eq_true, if_false, if_neg hdashes]
      exact ih ht.2 (Option.map_eq_none_iff.1 h)

end Scan

theorem endOfCode_trimEnd (start : Position) (text : List Char) :
    endOfCode start (trimEnd text) = endOfCode start text := by
  obtain ⟨blanks, hsplit, hblanks⟩ := exists_eq_dropEndWhile_append isBlank text
  have hhead : blanks.head? ≠ some '-' := fun hhead =>
    absurd (hblanks _ (mem_of_mem_head? hhead)) (by decide)
  rw [endOfCode, endOfCode, scanCode_eq, scanCode_eq]
  nth_rewrite 2 [hsplit]
  rw [Scan.past_append hhead, Scan.last_past_blanks hblanks, trimEnd]

/-- The last line of a text is scanned from outside of strings and comments. -/
theorem exists_lastLine (start : Position) (t : List Char) : ∃ lines line last, t = lines ++ line ∧
    '\n' ∉ line ∧ (lines = [] ∨ lines.getLast? = some '\n') ∧
    cutComment? t = (commentStart? false line).map (lines ++ line.take ·) ∧
    ∀ u, endOfCode start (lines ++ u) =
      (Scan.past ⟨false, false, start.afterAll lines, last⟩ u).last := by
  have hfeed : '\n' ∉ t.rtakeWhile (· != '\n') := fun hmem => by simpa using mem_rtakeWhile_imp hmem
  refine ⟨t.rdropWhile (· != '\n'), t.rtakeWhile (· != '\n'), ?_⟩
  rcases eq_nil_or_concat' (t.rdropWhile (· != '\n')) with hnil | ⟨lines, x, hlines⟩
  · refine ⟨start, rdropWhile_append_rtakeWhile.symm, hfeed, .inl hnil, rfl, fun u => ?_⟩
    rw [hnil, nil_append, endOfCode, scanCode_eq]
    rfl
  · have hx : x = '\n' := by
      have hnot := rdropWhile_last_not (· != '\n') t (by simp [hlines])
      simpa [hlines] using hnot
    refine ⟨(Scan.past ⟨false, false, start, start⟩ lines).last, rdropWhile_append_rtakeWhile.symm,
      hfeed, .inr (by simp [hlines, hx]), rfl, fun u => ?_⟩
    rw [hlines, hx, append_assoc, singleton_append, endOfCode, scanCode_eq,
      Scan.past_append (by simp), Scan.past, if_pos rfl, Scan.here_past, Position.afterAll_append]
    rfl

/-- **The scan finds the end of what is left of the text without the comments at its end.** -/
theorem endOfCode_eq (start : Position) (text : List Char) :
    endOfCode start text = start.afterAll (stripComments text) := by
  fun_induction stripComments text with
  | case1 text hcut =>
    rw [← endOfCode_trimEnd]
    have hlast {x : Char} : (trimEnd text).getLast? = some x → isBlank x = false := getLast?_trimEnd
    obtain ⟨lines, line, _, htrim, hfeed, hlines, hline, hscan⟩ :=
      exists_lastLine start (trimEnd text)
    rw [hline, Option.map_eq_none_iff] at hcut
    rw [htrim] at hlast ⊢
    rcases eq_nil_or_concat' line with rfl | ⟨w, x, rfl⟩
    · rcases hlines with rfl | hend
      · rfl
      · exact absurd (hlast (by rwa [append_nil])) (by decide)
    · rw [hscan, Scan.last_past_concat hfeed hcut (hlast (by simp)), ← Position.afterAll_append]
  | case2 text code hcut ih =>
    obtain ⟨lines, line, _, htrim, hfeed, -, hline, hscan⟩ := exists_lastLine start (trimEnd text)
    obtain ⟨n, hn, rfl⟩ := Option.map_eq_some_iff.1 (hline.symm.trans hcut)
    rw [← ih, ← endOfCode_trimEnd, htrim, hscan, hscan, Scan.last_past_take hfeed hn]

end RobotSource.Karel
