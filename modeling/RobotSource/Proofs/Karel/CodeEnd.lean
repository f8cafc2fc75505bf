import RobotSource.Proofs.Karel.Pieces
/-!
# The end of the code

The end of a construct is found by a scan that looks for quotes and dashes only; `Scan.past` says
where it stands behind a text. Over whole pieces (`scanCode_pieces`) it comes out behind the last
token: no token but a string holds a quote, no two
dashes stand together but in strings and comments, and no token ends in a blank.
-/

namespace RobotSource.Karel

open Grammar Parsing Text List

variable {t u v : List Char} {x : Char}
variable {s : List Char}

/-- The position behind the last token of the pieces, the first of which stands at `here`; `last` if
there is none. -/
def codeEnd (here last : Position) : List Piece → Position
  | [] => last
  | l :: ls =>
    codeEnd (here.afterAll l.chars)
      (if l.kind = .token then here.afterAll l.chars else last) ls

/-- Every carriage return is directly followed by a line feed. -/
def returnsPaired : List Char → Bool
  | [] => true
  | x :: t => (x != '\r' || t.head? == some '\n') && returnsPaired t

theorem returnsPaired_of_append (h : returnsPaired (u ++ v)) : returnsPaired v := by
  induction u with
  | nil => exact h
  | cons x u ih =>
    rw [cons_append, returnsPaired, Bool.and_eq_true] at h
    exact ih h.2

theorem returnsPaired_append_newline (u v : List Char) :
    returnsPaired (u ++ '\n' :: v) = (returnsPaired (u ++ ['\n']) && returnsPaired v) := by
  induction u with
  | nil => simp [returnsPaired]
  | cons x u ih =>
    have hhead : (u ++ '\n' :: v).head? = (u ++ ['\n']).head? := by cases u <;> rfl
    rw [cons_append, cons_append, returnsPaired, returnsPaired, ih, hhead, Bool.and_assoc]

theorem returnsPaired_of_forall (h : ∀ x ∈ u, isBreak x = false) : returnsPaired u := by
  induction u with
  | nil => rfl
  | cons x u ih =>
    obtain ⟨hx, hu⟩ := forall_mem_cons.1 h
    have hreturn : x ≠ '\r' := by
      rintro rfl
      exact absurd hx (by decide)
    simp [returnsPaired, hreturn, ih hu]

/-- A carriage return can only be the last character of a line. -/
theorem exists_line_of_returnsPaired {l : List Char} (hpaired : returnsPaired (l ++ v))
    (hfeed : '\n' ∉ l) :
    ∃ w : List Char, (∀ x ∈ w, isBreak x = false) ∧
      (l = w ∨ l = w ++ ['\r'] ∧ v.head? = some '\n') := by
  induction l with
  | nil => exact ⟨[], by simp, .inl rfl⟩
  | cons x l ih =>
    rw [mem_cons, not_or] at hfeed
    rw [cons_append, returnsPaired, Bool.and_eq_true] at hpaired
    by_cases hx : x = '\r'
    · have hhead : (l ++ v).head? = some '\n' := by simpa [hx] using hpaired.1
      cases l with
      | nil => exact ⟨[], by simp, .inr ⟨by simp [hx], hhead⟩⟩
      | cons y l =>
        obtain rfl : y = '\n' := Option.some.inj hhead
        exact absurd mem_cons_self hfeed.2
    · obtain ⟨w, hw, hl⟩ := ih hpaired.2 hfeed.2
      have hbreak : isBreak x = false := by simp [isBreak, hx, Ne.symm hfeed.1]
      refine ⟨x :: w, forall_mem_cons.2 ⟨hbreak, hw⟩, ?_⟩
      rcases hl with rfl | ⟨rfl, hhead⟩
      · exact .inl rfl
      · exact .inr ⟨rfl, hhead⟩

theorem isBreak_eq_false_of_notMem (hpaired : returnsPaired u) (hfeed : '\n' ∉ u) :
    ∀ x ∈ u, isBreak x = false := by
  rw [← append_nil u] at hpaired
  obtain ⟨w, hw, rfl | ⟨-, hhead⟩⟩ := exists_line_of_returnsPaired hpaired hfeed
  · exact hw
  · cases hhead

theorem notMem_of_isBreak_eq_false (h : ∀ x ∈ u, isBreak x = false) : '\n' ∉ u :=
  fun hmem => absurd (h _ hmem) (by decide)

/-- A character that is neither blank nor a quote. -/
def isPlain (x : Char) : Bool := !isBlank x && x != '\''

/-- The text `u` holds plain characters only, and no two dashes before `v`. -/
def Quiet (v : List Char) : List Char → Prop
  | [] => True
  | x :: u => isPlain x = true ∧ (x = '-' → (u ++ v).head? ≠ some '-') ∧ Quiet v u

theorem Quiet.append (h : Quiet (t ++ v) u) (h' : Quiet v t) : Quiet v (u ++ t) := by
  induction u with
  | nil => exact h'
  | cons x u ih =>
    refine ⟨h.1, fun hx => ?_, ih h.2.2⟩
    have hhead := h.2.1 hx
    rwa [← append_assoc] at hhead

theorem quiet_of_forall (h : ∀ x ∈ u, isPlain x ∧ x ≠ '-') : Quiet v u := by
  induction u with
  | nil => trivial
  | cons x u ih =>
    obtain ⟨hx, hu⟩ := forall_mem_cons.1 h
    exact ⟨hx.1, fun heq => absurd heq hx.2, ih hu⟩

theorem isPlain_of_isNameChar (h : isNameChar x) : isPlain x ∧ x ≠ '-' :=
  of_ascii (p := fun x => isNameChar x = true → isPlain x = true ∧ x ≠ '-') (by decide)
    (lt_of_isNameChar h) h

theorem isPlain_of_isDigit (h : x.isDigit) : isPlain x ∧ x ≠ '-' :=
  isPlain_of_isNameChar (by simp [isNameChar, Char.isAlphanum, h])

theorem Digits.quiet (h : Digits u) : Quiet v u :=
  quiet_of_forall fun x hx => isPlain_of_isDigit (h.2 x hx)

theorem Mantissa.quiet (h : Mantissa u) : Quiet v u := by
  have hpoint {s : List Char} (hs : ∀ x ∈ s, x.isDigit) : Quiet v ('.' :: s) :=
    ⟨by decide, by simp, quiet_of_forall fun x hx => isPlain_of_isDigit (hs x hx)⟩
  cases h with
  | whole hd => exact hd.quiet
  | mixed hd hf => exact hd.quiet.append (hpoint hf)
  | fraction hf => exact hpoint hf.2

theorem Exponent.quiet (h : Exponent u) : Quiet v u := by
  cases h with
  | none => trivial
  | unsigned hx hd =>
    rcases hx with rfl | rfl <;> exact ⟨by decide, by simp, hd.quiet⟩
  | @signed x s d hx hs hd =>
    -- The digits behind the sign keep it from making up a comment.
    obtain ⟨y, w, rfl⟩ := exists_cons_of_ne_nil hd.1
    have hy : y ≠ '-' := (isPlain_of_isDigit (hd.2 y mem_cons_self)).2
    have hsign : Quiet v (s :: y :: w) := by
      refine ⟨?_, fun _ => by simpa using hy, hd.quiet⟩
      rcases hs with rfl | rfl <;> decide
    rcases hx with rfl | rfl <;> exact ⟨by decide, by simp, hsign⟩

theorem quiet_of_spelled (h : Spelled u) (hdash : u = ['-'] → v.head? ≠ some '-')
    (hquote : u.head? ≠ some '\'') : Quiet v u := by
  cases h with
  | word h => exact quiet_of_forall fun x hx => isPlain_of_isNameChar (h.chars x hx)
  | number h =>
    obtain ⟨m, x, rfl, hm, hx⟩ := h
    exact hm.quiet.append hx.quiet
  | string _ => exact absurd rfl hquote
  | system h =>
    exact ⟨by decide, by simp, quiet_of_forall fun x hx => isPlain_of_isNameChar (h.chars x hx)⟩
  | double h =>
    refine quiet_of_forall ?_
    simp only [doubleMarks, mem_cons, not_mem_nil, or_false] at h
    rcases h with rfl | rfl | rfl | rfl <;> simp [isPlain, isBlank]
  | @single x h =>
    refine ⟨?_, fun hx => hdash (by rw [hx]), trivial⟩
    have hall : (singleMarks.all isPlain) = true := by decide
    exact all_eq_true.1 hall x h

/-! ## The scan -/

/-- Where the scan for the end of the code stands: whether inside a string or a comment, at which
place, and which place is behind the last character of code. -/
structure Scan where
  quoted : Bool
  comment : Bool
  here : Position
  last : Position

namespace Scan

/-- Where the scan stands behind a text. -/
def past (s : Scan) : List Char → Scan
  | [] => s
  | x :: t =>
    let next := s.here.after x
    if x = '\n' then past ⟨false, false, next, s.last⟩ t
    else if s.comment then past ⟨s.quoted, true, next, s.last⟩ t
    else if !s.quoted ∧ x = '-' ∧ t.head? = some '-' then past ⟨false, true, next, s.last⟩ t
    else past ⟨s.quoted != (x == '\''), false, next, if isBlank x then s.last else next⟩ t

theorem past_quiet (h : Quiet v u) (hne : u ≠ []) (here last : Position) :
    past ⟨false, false, here, last⟩ (u ++ v) =
      past ⟨false, false, here.afterAll u, here.afterAll u⟩ v := by
  induction u generalizing here last with
  | nil => exact absurd rfl hne
  | cons x u ih =>
    obtain ⟨hplain, hdash, hu⟩ := h
    simp only [isPlain, Bool.and_eq_true, Bool.not_eq_true', bne_iff_ne] at hplain
    have hbreak : x ≠ '\n' := by
      rintro rfl
      exact absurd hplain.1 (by decide)
    have hnoComment : ¬ ((!false) = true ∧ x = '-' ∧ (u ++ v).head? = some '-') :=
      fun hand => hdash hand.2.1 hand.2.2
    have hsame : (false != (x == '\'')) = false := by simpa using hplain.2
    rw [cons_append, past]
    simp only [if_neg hbreak, Bool.false_eq_true, if_false, if_neg hnoComment, hsame, hplain.1]
    cases u with
    | nil => rfl
    | cons y u => exact ih hu (by simp) _ _

/-- A string goes on up to its quote. -/
theorem exists_past_open (hu : ∀ x ∈ u, x ≠ '\'' ∧ x ≠ '\n') (here last : Position)
    (t : List Char) : ∃ last', past ⟨true, false, here, last⟩ (u ++ t) =
      past ⟨true, false, here.afterAll u, last'⟩ t := by
  induction u generalizing here last with
  | nil => exact ⟨last, rfl⟩
  | cons x u ih =>
    obtain ⟨hx, hu⟩ := forall_mem_cons.1 hu
    have hsame : (true != (x == '\'')) = true := by simpa using hx.1
    rw [cons_append, past]
    simp only [if_neg hx.2, Bool.false_eq_true, if_false, Bool.not_true, false_and, hsame]
    exact ih hu _ _

theorem past_comment (hu : '\n' ∉ u) (quoted : Bool) (here last : Position) (t : List Char) :
    past ⟨quoted, true, here, last⟩ (u ++ t) = past ⟨quoted, true, here.afterAll u, last⟩ t := by
  induction u generalizing here with
  | nil => rfl
  | cons x u ih =>
    rw [mem_cons, not_or] at hu
    rw [cons_append, past]
    simp only [if_neg (Ne.symm hu.1), if_true]
    exact ih hu.2 _

end Scan

/-- Only a string begins with a quote. -/
theorem Spelled.string_of_head? (h : Spelled u) (hquote : u.head? = some '\'') :
    ∃ w, (∀ x ∈ w, x ≠ '\'' ∧ x ≠ '\n') ∧ u = '\'' :: w ++ ['\''] := by
  cases h with
  | @string w hw => exact ⟨w, hw, rfl⟩
  | word h =>
    obtain ⟨x, s, rfl, hx⟩ := h.exists_cons
    cases hquote
    cases hx
  | number h =>
    obtain ⟨x, s, rfl, hx⟩ := h.exists_cons
    cases hquote
    rcases hx with hx | hx <;> cases hx
  | system _ => cases hquote
  | double h =>
    simp only [doubleMarks, mem_cons, not_mem_nil, or_false] at h
    rcases h with rfl | rfl | rfl | rfl <;> cases hquote
  | single h =>
    cases hquote
    exact absurd h (by decide)

theorem no_mark_of_isSpacing (hx : isSpacing x) : x ≠ '-' ∧ (x == '\'') = false := by
  rw [beq_eq_false_iff_ne]
  constructor <;> rintro rfl <;> cases hx

theorem notMem_takeWhile_not_isBreak (u : List Char) : '\n' ∉ u.takeWhile fun y => !isBreak y :=
  fun hmem => absurd (all_eq_true.1 all_takeWhile _ hmem) (by decide)

theorem mem_dropWhile_not_isBreak (h : '\n' ∈ u) : '\n' ∈ u.dropWhile fun y => !isBreak y := by
  rw [← takeWhile_append_dropWhile (p := fun y => !isBreak y) (l := u)] at h
  exact (mem_append.1 h).resolve_left (notMem_takeWhile_not_isBreak u)

namespace Scan

/-- The scan passes over a whole token. -/
theorem past_spelled (h : Spelled u) (hdash : u = ['-'] → v.head? ≠ some '-')
    (here last : Position) : past ⟨false, false, here, last⟩ (u ++ v) =
      past ⟨false, false, here.afterAll u, here.afterAll u⟩ v := by
  by_cases hquote : u.head? = some '\''
  · obtain ⟨w, hw, rfl⟩ := h.string_of_head? hquote
    obtain ⟨_, hopen⟩ := exists_past_open hw (here.after '\'') (here.after '\'') ('\'' :: v)
    rw [append_assoc, cons_append, singleton_append, past,
      Position.afterAll_append]
    exact hopen
  · exact past_quiet (quiet_of_spelled h hdash hquote) h.ne_nil here last

/-- Over a blank the scan goes on, and a comment with it up to the line feed. -/
theorem exists_past_blank {comment : Bool} (hx : isSpacing x)
    (hpaired : returnsPaired (x :: s)) (hcomment : comment → isBreak x)
    (here last : Position) (w : List Char) : ∃ comment', (comment' = true → s.head? = some '\n') ∧
      past ⟨false, comment, here, last⟩ (x :: w) = past ⟨false, comment', here.after x, last⟩ w := by
  rw [past]
  by_cases hfeed : x = '\n'
  · exact ⟨false, by simp, if_pos hfeed⟩
  simp only [if_neg hfeed]
  cases comment with
  | true =>
    have hreturn : x = '\r' := by simpa [isBreak, hfeed] using hcomment rfl
    rw [returnsPaired, Bool.and_eq_true] at hpaired
    exact ⟨true, fun _ => by simpa [hreturn] using hpaired.1, rfl⟩
  | false =>
    obtain ⟨hdash, hquote⟩ := no_mark_of_isSpacing hx
    have hblank : isBlank x := by
      simp only [isSpacing, Bool.or_eq_true, beq_iff_eq] at hx
      rcases hx with ((rfl | rfl) | rfl) | rfl <;> decide
    refine ⟨false, by simp, ?_⟩
    simp only [Bool.false_eq_true, if_false, hdash, false_and, and_false, hquote, hblank, if_true]
    rfl

/-- Two dashes open a comment, which goes on behind its last character. -/
theorem past_dashes (w v : List Char) (here last : Position) :
    past ⟨false, false, here, last⟩ ('-' :: ('-' :: w).takeWhile (fun y => !isBreak y) ++ v) =
      past ⟨false, true, here.afterAll ('-' :: ('-' :: w).takeWhile fun y => !isBreak y), last⟩ v := by
  have hdashes : (('-' :: w).takeWhile (fun y => !isBreak y) ++ v).head? = some '-' := by
    rw [takeWhile_cons_of_pos (by decide)]
    rfl
  rw [cons_append, past]
  simp only [hdashes, Char.reduceEq, Bool.false_eq_true, if_false, Bool.not_false, and_self,
    if_true]
  rw [past_comment (notMem_takeWhile_not_isBreak _)]
  rfl

end Scan

theorem scanCode_eq (quoted comment : Bool) (here last : Position) (t : List Char) :
    scanCode quoted comment here last t =
      (Scan.past ⟨quoted, comment, here, last⟩ t).last := by
  induction t generalizing quoted comment here last with
  | nil => rfl
  | cons x t ih => simp only [scanCode, Scan.past, ih, apply_ite Scan.last]

theorem head?_dropWhile_all_isBreak (w : List Char) :
    (w.dropWhile fun y => !isBreak y).head?.all isBreak = true := by
  have hnot := head?_dropWhile_not (fun y => !isBreak y) w
  cases hw : (w.dropWhile fun y => !isBreak y).head? with
  | none => rfl
  | some y => simpa [hw] using hnot

/-- Behind a token that is a dash no further dash stands: the two would open a comment. -/
theorem head?_ne_dash_of_token {n : Nat} (hzero : blankLength false t = 0)
    (hflat : t.drop n = v ++ s) (htake : t.take n = ['-']) : v.head? ≠ some '-' := by
  intro hhead
  rw [← take_append_drop n t, htake, hflat, singleton_append,
    blankLength_eq_zero] at hzero
  exact hzero.2 ⟨rfl, by rw [head?_append, hhead]; rfl⟩

/-- **Over whole pieces the scan comes out behind the last token.** A comment is over for the scan
with the line feed only, so that it may go on for one carriage return. -/
theorem scanCode_pieces {ls : List Piece} (h : pieces t = ls ++ pieces s)
    (hkinds : ∀ l ∈ ls, l.isGap ∨ l.kind = .token) (hpaired : returnsPaired t)
    {comment : Bool} (hcomment : comment → t.head?.all isBreak)
    (here last : Position) :
    scanCode false comment here last (flat ls) = codeEnd here last ls := by
  rw [scanCode_eq]
  induction ls generalizing t comment here last with
  | nil => rfl
  | cons l ls ih =>
    obtain ⟨hl, hls⟩ := forall_mem_cons.1 hkinds
    rw [cons_append] at h
    rw [flat_cons, codeEnd]
    rcases pieces_cases h with ⟨x, s', rfl, hx, rfl, hms⟩ | ⟨s', rfl, hs', rfl, hms⟩ |
      ⟨n, hzero, htoken, rfl, hms⟩ | hkind | hkind
    · obtain ⟨comment', hcomment', hscan⟩ := Scan.exists_past_blank hx hpaired
        (by simpa using hcomment) here last (flat ls)
      rw [returnsPaired, Bool.and_eq_true] at hpaired
      rw [singleton_append, hscan]
      exact ih hms.symm hls hpaired.2 (fun htrue => by rw [hcomment' htrue]; rfl) _ _
    · obtain ⟨w, rfl⟩ := head?_eq_some_iff.1 hs'
      cases comment with
      | true => cases hcomment rfl
      | false =>
        have hpaired' : returnsPaired (('-' :: w).dropWhile fun y => !isBreak y) = true := by
          refine returnsPaired_of_append (u := '-' :: ('-' :: w).takeWhile fun y => !isBreak y) ?_
          rwa [cons_append, takeWhile_append_dropWhile]
        rw [Scan.past_dashes]
        exact ih hms.symm hls hpaired' (fun _ => head?_dropWhile_all_isBreak _) _ _
    · have hplain : comment = false := by
        refine Bool.eq_false_iff.2 fun htrue => ?_
        have hne : t ≠ [] := by
          rintro rfl
          cases htoken
        obtain ⟨x, w, hxw⟩ := exists_cons_of_ne_nil hne
        have hbreak : isBreak x := by simpa [hxw] using hcomment htrue
        rw [hxw, blankLength_eq_zero, isSpacing_of_isBreak hbreak] at hzero
        cases hzero.1
      have hflat : t.drop n = flat ls ++ s := by
        rw [← flat_pieces (t.drop n), ← hms, flat_append, flat_pieces]
      have hpaired' : returnsPaired (t.drop n) := by
        refine returnsPaired_of_append (u := t.take n) ?_
        rwa [take_append_drop]
      rw [hplain, Scan.past_spelled (spelled_of_tokenLength? htoken)
        (head?_ne_dash_of_token hzero hflat)]
      exact ih hms.symm hls hpaired' (by simp) _ _
    · rw [Piece.isGap, hkind] at hl
      rcases hl with hl | hl <;> cases hl
    · rw [Piece.isGap, hkind] at hl
      rcases hl with hl | hl <;> cases hl

end RobotSource.Karel
